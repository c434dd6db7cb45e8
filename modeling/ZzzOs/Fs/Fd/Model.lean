import Mathlib.Logic.Function.Basic
import ZzzOs.Lib.Wp

/-!
# Descriptor tables and file descriptions

`fs/file.c` with `kernel/pipe.c`, and what `fork` and `exec` do to descriptor tables. A call is run as a
whole; what the layers below it return is given with it. The end of a task is not one of the calls.

The log in the state, of the file operations that were invoked, is not part of the source.
-/

namespace ZzzOs.Fs.Fd

open Function Lib

def ebadf : Int := 9

def enomem : Int := 12

def eacces : Int := 13

def efault : Int := 14

def einval : Int := 22

def emfile : Int := 24

def maxOpenFilesNum : Nat := 64

def syscallIoChunk : Nat := 4096

/-! ## Flags -/

def oAccmode : BitVec 32 := 0o3

def oRdonly : BitVec 32 := 0o0

def oWronly : BitVec 32 := 0o1

def oRdwr : BitVec 32 := 0o2

def oAppend : BitVec 32 := 0o2000

def oNonblock : BitVec 32 := 0o4000

def oCloexec : BitVec 32 := 0o2000000

def fcntlSettableFlags : BitVec 32 := oAppend ||| oNonblock

/-- A flag of a C condition -/
def hasFlag (flags flag : BitVec 32) : Bool := flags &&& flag != 0

/-! ## The state -/

structure FilesStruct where
  refcount : Nat
  openFds : Nat → Bool
  closeOnExec : Nat → Bool
  fd : Nat → Option Nat
  nextFd : Nat

/-- The operations of a file that are not null -/
structure FileOperations where
  read : Bool
  write : Bool

structure File where
  fOp : FileOperations
  fFlags : BitVec 32
  fCount : Nat
  /-- The flags that the file was opened with; not part of the source. -/
  opened : BitVec 32

inductive Op where
  | read
  | write
deriving DecidableEq

/-- An operation of a file was invoked, which had been opened with these flags. -/
structure Invocation where
  opened : BitVec 32
  op : Op
deriving DecidableEq

structure Sys where
  /-- The tables, and how many of them there are. -/
  tables : Nat → FilesStruct
  tablesNr : Nat
  files : Nat → Option File
  /-- The number of the next description. -/
  serial : Nat
  log : List Invocation

/-- Why a call does not return: it has written outside of a table, or followed a null pointer or one
to something that was freed. -/
inductive Crash where
  | wild
  | oops
  | freed
deriving DecidableEq

abbrev F := EStateM Crash Sys

def Sys.setTable (s : Sys) (t : Nat) (files : FilesStruct) : Sys :=
  { s with tables := update s.tables t files }

def Sys.setFile (s : Sys) (f : Nat) (file : Option File) : Sys :=
  { s with files := update s.files f file }

def tableAt (t : Nat) : F FilesStruct := fun s =>
  if t < s.tablesNr then .ok (s.tables t) s else .error .freed s

def fileAt (f : Nat) : F File := fun s =>
  match s.files f with
  | none => .error .freed s
  | some file => .ok file s

def setTable (t : Nat) (files : FilesStruct) : F Unit := modify fun s => s.setTable t files

/-! ## Descriptions -/

def getFile (f : Nat) : F Unit := do
  let file ← fileAt f
  modify fun s => s.setFile f (some { file with fCount := file.fCount + 1 })

def putFile (f : Nat) : F Unit := do
  let file ← fileAt f
  modify fun s => s.setFile f (some { file with fCount := file.fCount - 1 })

def filpClose (f : Nat) : F Unit := modify fun s => s.setFile f none

def fileReleaseLastRef (f : Nat) : F Unit := do
  let file ← fileAt f
  if file.fCount = 0 then filpClose f else pure ()

/-- A new description with one reference -/
def newFile (fOp : FileOperations) (flags : BitVec 32) : F Nat := do
  let s ← get
  let file : File := { fOp, fFlags := flags, fCount := 1, opened := flags }
  set { s.setFile s.serial (some file) with serial := s.serial + 1 }
  return s.serial

/-! ## Tables -/

def FilesStruct.init : FilesStruct where
  refcount := 1
  openFds _ := false
  closeOnExec _ := false
  fd _ := none
  nextFd := 0

def firstClosed (openFds : Nat → Bool) : Nat → Nat → Nat
  | 0, fd => fd
  | n + 1, fd => if openFds fd then firstClosed openFds n (fd + 1) else fd

/-- `__alloc_fd` on a table, without a result when all descriptors are open -/
def FilesStruct.alloc (files : FilesStruct) (start : Nat) (cloexec : Bool) :
    Option (Nat × FilesStruct) :=
  let first := if files.nextFd < start then start else files.nextFd
  let fd := firstClosed files.openFds (maxOpenFilesNum - first) first
  if maxOpenFilesNum ≤ fd then none
  else
    some (fd,
      { files with
        openFds := update files.openFds fd true
        closeOnExec := update files.closeOnExec fd cloexec
        fd := update files.fd fd none
        nextFd := fd + 1 })

def FilesStruct.attach (files : FilesStruct) (fd f : Nat) : FilesStruct :=
  { files with
    openFds := update files.openFds fd true
    fd := update files.fd fd (some f) }

/-- The descriptor is taken out of the table, with `__put_unused_fd`. -/
def FilesStruct.drop (files : FilesStruct) (fd : Nat) : FilesStruct :=
  { files with
    openFds := update files.openFds fd false
    closeOnExec := update files.closeOnExec fd false
    fd := update files.fd fd none
    nextFd := if fd < files.nextFd then fd else files.nextFd }

/-- The copy that `dup_fd` makes of a table -/
def FilesStruct.copy (files : FilesStruct) : FilesStruct :=
  let copied fd := decide (fd < maxOpenFilesNum) && files.openFds fd && (files.fd fd).isSome
  { refcount := 1
    openFds := copied
    closeOnExec fd := copied fd && files.closeOnExec fd
    fd fd := if copied fd then files.fd fd else none
    nextFd := 0 }

def allocFd (t : Nat) (start flags : BitVec 32) : F Int := do
  let files ← tableAt t
  match files.alloc start.toNat (hasFlag flags oCloexec) with
  | none => return -emfile
  | some (fd, files) =>
    setTable t files
    return fd

def attachFd (t : Nat) (fd : BitVec 32) (f : Nat) : F Unit := do
  let files ← tableAt t
  if maxOpenFilesNum ≤ fd.toNat then throw .wild
  else setTable t (files.attach fd.toNat f)

def closeFd (t : Nat) (fd : BitVec 32) : F Int := do
  let files ← tableAt t
  if maxOpenFilesNum ≤ fd.toNat then return -ebadf
  else
    match files.fd fd.toNat with
    | none => return -ebadf
    | some f =>
      setTable t (files.drop fd.toNat)
      putFile f
      fileReleaseLastRef f
      return 0

/-- `sys_fdget`, which takes no reference -/
def sysFdget (t : Nat) (fd : BitVec 32) : F (Option Nat) := do
  if fd.toInt < 0 then return none
  else
    let files ← tableAt t
    if fd.toInt < maxOpenFilesNum ∧ files.openFds fd.toNat then return files.fd fd.toNat
    else return none

def fdGetFile (t : Nat) (fd : BitVec 32) : F (Option Nat) := do
  let files ← tableAt t
  if fd.toNat < maxOpenFilesNum ∧ files.openFds fd.toNat then
    match files.fd fd.toNat with
    | none => return none
    | some f =>
      getFile f
      return some f
  else return none

def fdPutFile (f : Nat) : F Unit := putFile f

/-- The references of the copy of a table -/
def getFiles (files : FilesStruct) : List Nat → F Unit
  | [] => pure ()
  | fd :: fds => do
    match files.fd fd with
    | none => getFiles files fds
    | some f =>
      getFile f
      getFiles files fds

/-- `dup_fd` without `CLONE_FILES`, if there is memory for the new table -/
def dupFd (t : Nat) (mem : Bool) : F (Option Nat) := do
  let files ← tableAt t
  if mem then
    getFiles files.copy (List.range maxOpenFilesNum)
    let s ← get
    set { s.setTable s.tablesNr files.copy with tablesNr := s.tablesNr + 1 }
    return some s.tablesNr
  else return none

/-! ## Calls -/

/-- `sys_open`; `file` is what `filp_open` and `vfs_create` give. -/
def sysOpen (t : Nat) (flags : BitVec 32) (file : Except Int FileOperations) : F Int := do
  match file with
  | .error ret => return ret
  | .ok fOp =>
    let f ← newFile fOp flags
    let fd ← allocFd t 0 flags
    if fd < 0 then
      filpClose f
      return fd
    else
      attachFd t (BitVec.ofInt 32 fd) f
      return fd

def sysClose (t : Nat) (fd : BitVec 32) : F Int := closeFd t fd

/-- The part of `sys_dup` and `F_DUPFD` after their arguments were checked -/
def dupFrom (t : Nat) (fd start flags : BitVec 32) : F Int := do
  match ← fdGetFile t fd with
  | none => return -ebadf
  | some f =>
    let newfd ← allocFd t start flags
    if newfd < 0 then
      fdPutFile f
      return newfd
    else
      attachFd t (BitVec.ofInt 32 newfd) f
      return newfd

def sysDup (t : Nat) (oldfd : BitVec 32) : F Int := dupFrom t oldfd 0 0

def sysDup2 (t : Nat) (oldfd newfd : BitVec 32) : F Int := do
  if oldfd = newfd then return newfd.toInt
  else
    match ← fdGetFile t oldfd with
    | none => return -ebadf
    | some f =>
      let _ ← closeFd t newfd
      attachFd t newfd f
      return newfd.toInt

inductive Fcntl where
  | dupfd
  | getfd
  | setfd
  | getfl
  | setfl
  | dupfdCloexec
deriving DecidableEq

def Fcntl.ofCmd (cmd : BitVec 32) : Option Fcntl :=
  if cmd = 0 then some .dupfd
  else if cmd = 1 then some .getfd
  else if cmd = 2 then some .setfd
  else if cmd = 3 then some .getfl
  else if cmd = 4 then some .setfl
  else if cmd = 1030 then some .dupfdCloexec
  else none

/-- `F_DUPFD` and `F_DUPFD_CLOEXEC` -/
def fcntlDupfd (t : Nat) (fd arg flags : BitVec 32) : F Int :=
  if arg.toInt < 0 then return -einval else dupFrom t fd arg flags

def fdGetCloseOnExec (t : Nat) (fd : BitVec 32) : F Int := do
  if fd.toInt < 0 then return -ebadf
  else
    let files ← tableAt t
    if fd.toInt < maxOpenFilesNum ∧ files.openFds fd.toNat then
      return if files.closeOnExec fd.toNat then 1 else 0
    else return -ebadf

def setCloseOnExec (t : Nat) (fd : BitVec 32) (flag : Bool) : F Unit := do
  let files ← tableAt t
  if maxOpenFilesNum ≤ fd.toNat then throw .wild
  else setTable t { files with closeOnExec := update files.closeOnExec fd.toNat flag }

/-- The flags after `F_SETFL` -/
def setFlags (flags arg : BitVec 32) : BitVec 32 :=
  (flags &&& ~~~fcntlSettableFlags) ||| (arg &&& fcntlSettableFlags)

def sysFcntl (t : Nat) (fd cmd : BitVec 32) (arg : BitVec 64) : F Int := do
  match Fcntl.ofCmd cmd with
  | some .dupfd => fcntlDupfd t fd (arg.setWidth 32) 0
  | some .dupfdCloexec => fcntlDupfd t fd (arg.setWidth 32) oCloexec
  | some .getfd => fdGetCloseOnExec t fd
  | some .setfd =>
    match ← sysFdget t fd with
    | none => return -ebadf
    | some _ =>
      setCloseOnExec t fd (arg.getLsbD 0)
      return 0
  | some .getfl =>
    match ← sysFdget t fd with
    | none => return -ebadf
    | some f => return (← fileAt f).fFlags.toNat
  | some .setfl =>
    match ← sysFdget t fd with
    | none => return -ebadf
    | some f =>
      let file ← fileAt f
      modify fun s => s.setFile f (some { file with fFlags := setFlags file.fFlags (arg.setWidth 32) })
      return 0
  | none => return -einval

/-- What `sys_pipe` meets: an error before there are files, or else whether the descriptors can be
copied to the user. -/
inductive PipeIo where
  | failed (ret : Int)
  | made (copied : Bool)

/-- `sys_pipe` after the descriptor of the read end -/
def pipeWriteEnd (t : Nat) (copied : Bool) (fd0 : Int) (wfile : Nat) : F Int := do
  let fd1 ← allocFd t 0 0
  if fd1 < 0 then
    let _ ← closeFd t (BitVec.ofInt 32 fd0)
    filpClose wfile
    return fd1
  else
    attachFd t (BitVec.ofInt 32 fd1) wfile
    if copied then return 0
    else
      let _ ← closeFd t (BitVec.ofInt 32 fd0)
      let _ ← closeFd t (BitVec.ofInt 32 fd1)
      return -efault

/-- `sys_pipe`; the files that are given back have no path, so that `free_file` is `filp_close`. -/
def sysPipe (t : Nat) (io : PipeIo) : F Int := do
  match io with
  | .failed ret => return ret
  | .made copied =>
    let rfile ← newFile { read := true, write := false } oRdonly
    let wfile ← newFile { read := false, write := true } oWronly
    let fd0 ← allocFd t 0 0
    if fd0 < 0 then
      filpClose rfile
      filpClose wfile
      return fd0
    else
      attachFd t (BitVec.ofInt 32 fd0) rfile
      pipeWriteEnd t copied fd0 wfile

/-- `fork`, with `CLONE_FILES` or without it. A fork that fails after `dup_fd` gives the new table
back, and is one that fails here. -/
def sysFork (t : Nat) (cloneFiles : Bool) (mem : Bool) : F Int := do
  if cloneFiles then
    let files ← tableAt t
    setTable t { files with refcount := files.refcount + 1 }
    return 0
  else
    match ← dupFd t mem with
    | none => return -enomem
    | some _ => return 0

/-- One round of the loop of `do_close_on_exec` -/
def closeOnExecAt (t fd : Nat) : F Unit := do
  let files ← tableAt t
  if files.openFds fd ∧ files.closeOnExec fd then
    setTable t (files.drop fd)
    match files.fd fd with
    | none => throw .oops
    | some f =>
      putFile f
      fileReleaseLastRef f
  else pure ()

def doCloseOnExec (t : Nat) : List Nat → F Unit
  | [] => pure ()
  | fd :: fds => do
    closeOnExecAt t fd
    doCloseOnExec t fds

/-- `init_files`, which is never given back -/
def initFiles : Nat := 0

/-- `unshare_files_struct`: the table of the task afterwards -/
def unshareFilesStruct (t : Nat) (mem : Bool) : F (Option Nat) := do
  let files ← tableAt t
  if files.refcount ≤ 1 then return some t
  else
    match ← dupFd t mem with
    | none => return none
    | some t' =>
      -- `put_files_struct`, of a table with other users
      let files ← tableAt t
      setTable t { files with refcount := files.refcount - (if t = initFiles then 0 else 1) }
      return some t'

/-- What `do_execve` does before it unshares the table, and what `search_binary_handler` returns -/
structure ExecIo where
  before : Int
  mem : Bool
  binary : Int

/-- `do_execve`, as far as it is about descriptors -/
def doExecve (t : Nat) (io : ExecIo) : F Int := do
  if io.before < 0 then return io.before
  else
    match ← unshareFilesStruct t io.mem with
    | none => return -enomem
    | some t' =>
      if io.binary < 0 then return io.binary
      else
        doCloseOnExec t' (List.range maxOpenFilesNum)
        return io.binary

/-! ## Reading and writing -/

/-- What the rounds of `sys_read` meet -/
structure ReadIo where
  mem : Bool
  ret : Nat → Int
  copied : Nat → Bool

/-- What the rounds of `sys_write` meet -/
structure WriteIo where
  mem : Bool
  copied : Nat → Bool
  ret : Nat → Int

/-- `kernel_read` and `kernel_write`: the operation is invoked, if there is one. -/
def invoke (f : Nat) (op : Op) (ret : Int) : F Int := do
  let file ← fileAt f
  if (match op with | .read => file.fOp.read | .write => file.fOp.write) then
    modify fun s => { s with log := { opened := file.opened, op } :: s.log }
    return ret
  else return -einval

/-- The loop of `sys_read` in round `i`, with `n` rounds at most: each of them reads something. -/
def readLoop (io : ReadIo) (f len : Nat) : Nat → Nat → Nat → F Int
  | 0, _, done => return done
  | n + 1, i, done => do
    if len ≤ done then return done
    else
      let chunk := min (len - done) syscallIoChunk
      let ret ← invoke f .read (io.ret i)
      if ret < 0 then return if done = 0 then ret else done
      else if ret = 0 then return done
      else if io.copied i = false then return if done = 0 then -efault else done
      else if ret.toNat < chunk then return done + ret.toNat
      else readLoop io f len n (i + 1) (done + ret.toNat)

def sysRead (t : Nat) (fd : BitVec 32) (len : Nat) (io : ReadIo) : F Int := do
  if len = 0 then return 0
  else
    match ← sysFdget t fd with
    | none => return -ebadf
    | some f =>
      let file ← fileAt f
      if hasFlag file.fFlags oWronly then return -eacces
      else if io.mem = false then return -enomem
      else readLoop io f len len 0 0

/-- The loop of `sys_write` in round `i`, with `n` rounds at most -/
def writeLoop (io : WriteIo) (f len : Nat) : Nat → Nat → Nat → F Int
  | 0, _, done => return done
  | n + 1, i, done => do
    if len ≤ done then return done
    else
      let chunk := min (len - done) syscallIoChunk
      if io.copied i = false then return if done = 0 then -efault else done
      else
        let ret ← invoke f .write (io.ret i)
        if ret < 0 then return if done = 0 then ret else done
        else if ret = 0 then return done
        else if ret.toNat < chunk then return done + ret.toNat
        else writeLoop io f len n (i + 1) (done + ret.toNat)

def sysWrite (t : Nat) (fd : BitVec 32) (len : Nat) (io : WriteIo) : F Int := do
  if len = 0 then return 0
  else
    match ← sysFdget t fd with
    | none => return -ebadf
    | some f =>
      let file ← fileAt f
      if hasFlag file.fFlags oRdonly then return -eacces
      else if io.mem = false then return -enomem
      else writeLoop io f len len 0 0

/-! ## Runs -/

inductive Call where
  | open (flags : BitVec 32) (file : Except Int FileOperations)
  | close (fd : BitVec 32)
  | dup (oldfd : BitVec 32)
  | dup2 (oldfd newfd : BitVec 32)
  | fcntl (fd cmd : BitVec 32) (arg : BitVec 64)
  | pipe (io : PipeIo)
  | fork (cloneFiles : Bool) (mem : Bool)
  | exec (io : ExecIo)
  | read (fd : BitVec 32) (len : Nat) (io : ReadIo)
  | write (fd : BitVec 32) (len : Nat) (io : WriteIo)

/-- A call of a task that uses the table `t` -/
def Call.run (t : Nat) : Call → F Int
  | .open flags file => sysOpen t flags file
  | .close fd => sysClose t fd
  | .dup oldfd => sysDup t oldfd
  | .dup2 oldfd newfd => sysDup2 t oldfd newfd
  | .fcntl fd cmd arg => sysFcntl t fd cmd arg
  | .pipe io => sysPipe t io
  | .fork cloneFiles mem => sysFork t cloneFiles mem
  | .exec io => doExecve t io
  | .read fd len io => sysRead t fd len io
  | .write fd len io => sysWrite t fd len io

end ZzzOs.Fs.Fd
