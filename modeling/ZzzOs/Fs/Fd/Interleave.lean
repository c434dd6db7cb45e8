import ZzzOs.Fs.Fd.Counts

/-!
# Descriptor tables and file descriptions, with several tasks

The functions of `fs/file.c` that take and drop references, one step for each locked section and for each
atomic operation on a count (`Pc`); any task may make the next step.

The descriptions are those that there are at the beginning. The counts of releases and frees are not part
of the source.
-/

namespace ZzzOs.Fs.Fd.Smp

open Function Lib

/-- `struct file`: its `f_count`, and how often it was released and closed -/
structure Desc where
  count : Nat
  released : Nat

/-- What a task does after a file was put -/
inductive Next where
  | done
  | attach (fd f : Nat)
  | closing (t fd : Nat)

/-- The next step of a task -/
inductive Pc where
  /-- The task is in none of the functions. -/
  | idle
  /-- `alloc_fd`, for a file that `dup` holds -/
  | allocating (f start : Nat) (cloexec : Bool)
  /-- `__close_fd` of the descriptor that `dup2` replaces -/
  | replacing (fd f : Nat)
  /-- `attach_fd` -/
  | attaching (fd f : Nat)
  /-- `put_file`, where it reads the count; `last` if `file_release_last_ref` follows -/
  | putting (f : Nat) (last : Bool) (k : Next)
  /-- `put_file`, where it decrements the count -/
  | decrementing (f : Nat) (last : Bool) (k : Next)
  /-- `file_release_last_ref`, where it reads the count -/
  | testing (f : Nat) (k : Next)
  /-- `file_release_last_ref`, where it releases and closes the file -/
  | releasing (f : Nat) (k : Next)
  /-- A new task is made, with a table. -/
  | forking (t : Nat)
  /-- `put_files_struct`, where it reads the count -/
  | dropping (t : Nat)
  /-- `put_files_struct`, where it decrements the count -/
  | leaving (t : Nat)
  /-- `close_files` at a descriptor -/
  | closing (t fd : Nat)
  /-- `put_files_struct`, where it frees the table -/
  | freeing (t : Nat)
  | zombie

def Next.pc : Next → Pc
  | .done => .idle
  | .attach fd f => .attaching fd f
  | .closing t fd => .closing t fd

structure Task where
  files : Option Nat
  /-- The files of `fd_get_file` that the running call will put -/
  held : List Nat
  pc : Pc

structure Sys where
  tables : Nat → FilesStruct
  /-- How often the tables were freed -/
  freed : Nat → Nat
  tablesNr : Nat
  files : Nat → Desc
  filesNr : Nat
  tasks : Nat → Task
  tasksNr : Nat

inductive Act where
  | getFile (fd : Nat)
  | putFile (f : Nat)
  | close (fd : Nat)
  | dup (fd start : Nat) (cloexec : Bool)
  | dup2 (fd newfd : Nat)
  | fork
  | cloneFiles
  | exit
  | reap (j : Nat)
  /-- The task goes on; `ok` tells if a new task can be made. -/
  | go (ok : Bool)

variable (s : Sys)

def Sys.setTask (i : Nat) (x : Task) : Sys := { s with tasks := update s.tasks i x }

def Sys.setPc (i : Nat) (pc : Pc) : Sys := s.setTask i { s.tasks i with pc := pc }

def Sys.setTable (t : Nat) (files : FilesStruct) : Sys :=
  { s with tables := update s.tables t files }

def Sys.setDesc (f : Nat) (file : Desc) : Sys := { s with files := update s.files f file }

def Sys.getFile (f : Nat) : Sys := s.setDesc f { s.files f with count := (s.files f).count + 1 }

/-- The file that `fd_get_file` finds -/
def slot (files : FilesStruct) (fd : Nat) : Option Nat :=
  if fd < maxOpenFilesNum ∧ files.openFds fd = true then files.fd fd else none

/-- The locked section of `__close_fd`: the file that has to be put, and the table after that -/
def closeSection (files : FilesStruct) (fd : Nat) : Option (Nat × FilesStruct) :=
  if fd < maxOpenFilesNum then (files.fd fd).map fun f => (f, files.drop fd) else none

/-- The locked section of `dup_fd`: all files of the copy have one more reference. -/
def Sys.copyTable (t : Nat) : Sys :=
  { s with
    tables := update s.tables s.tablesNr (s.tables t).copy
    freed := update s.freed s.tablesNr 0
    tablesNr := s.tablesNr + 1
    files := fun f => { s.files f with count := (s.files f).count + (s.tables t).copy.refs f } }

/-- A task that is in none of the functions, and has the table `t`, begins with one. -/
def Sys.begin (i t : Nat) : Act → Option Sys
  | .getFile fd =>
    match slot (s.tables t) fd with
    | none => some s
    | some f => some ((s.getFile f).setTask i { s.tasks i with held := f :: (s.tasks i).held })
  | .putFile f =>
    if f ∈ (s.tasks i).held then
      some (s.setTask i { s.tasks i with held := (s.tasks i).held.erase f, pc := .putting f false .done })
    else none
  | .close fd =>
    match closeSection (s.tables t) fd with
    | none => some s
    | some (f, files) => some ((s.setTable t files).setPc i (.putting f true .done))
  | .dup fd start cloexec =>
    match slot (s.tables t) fd with
    | none => some s
    | some f => some ((s.getFile f).setPc i (.allocating f start cloexec))
  | .dup2 fd newfd =>
    if newfd < maxOpenFilesNum ∧ fd ≠ newfd then
      match slot (s.tables t) fd with
      | none => some s
      | some f => some ((s.getFile f).setPc i (.replacing newfd f))
    else none
  | .fork => some ((s.copyTable t).setPc i (.forking s.tablesNr))
  | .cloneFiles =>
    let files := { s.tables t with refcount := (s.tables t).refcount + 1 }
    some ((s.setTable t files).setPc i (.forking t))
  | .exit => if (s.tasks i).held = [] then some (s.setPc i .zombie) else none
  | .reap j =>
    match (s.tasks j).pc, (s.tasks j).files with
    | .zombie, some u =>
      if j < s.tasksNr then some ((s.setTask j { s.tasks j with files := none }).setPc i (.dropping u)) else none
    | _, _ => none
  | .go _ => none

def Sys.proceed (i : Nat) (ok : Bool) : Pc → Option Sys
  | .idle | .zombie => none
  | .allocating f start cloexec =>
    match (s.tasks i).files with
    | none => none
    | some t =>
      match (s.tables t).alloc start cloexec with
      | none => some (s.setPc i (.putting f false .done))
      | some (fd, files) => some ((s.setTable t files).setPc i (.attaching fd f))
  | .replacing fd f =>
    match (s.tasks i).files with
    | none => none
    | some t =>
      match closeSection (s.tables t) fd with
      | none => some (s.setPc i (.attaching fd f))
      | some (g, files) => some ((s.setTable t files).setPc i (.putting g true (.attach fd f)))
  | .attaching fd f =>
    match (s.tasks i).files with
    | none => none
    | some t => some ((s.setTable t ((s.tables t).attach fd f)).setPc i .idle)
  | .putting f last k =>
    if 0 < (s.files f).count then some (s.setPc i (.decrementing f last k))
    else some (s.setPc i (if last then .testing f k else k.pc))
  | .decrementing f last k =>
    some ((s.setDesc f { s.files f with count := (s.files f).count - 1 }).setPc i
      (if last then .testing f k else k.pc))
  | .testing f k => some (s.setPc i (if (s.files f).count = 0 then .releasing f k else k.pc))
  | .releasing f k =>
    some ((s.setDesc f { s.files f with released := (s.files f).released + 1 }).setPc i k.pc)
  | .forking t =>
    if ok then
      let child : Task := { files := some t, held := [], pc := .idle }
      let s' := s.setPc i .idle
      some { s' with tasks := update s'.tasks s.tasksNr child, tasksNr := s.tasksNr + 1 }
    else some (s.setPc i (.dropping t))
  | .dropping t =>
    if t = initFiles then some (s.setPc i .idle)
    else if 1 < (s.tables t).refcount then some (s.setPc i (.leaving t))
    else some (s.setPc i (.closing t 0))
  | .leaving t =>
    let files := { s.tables t with refcount := (s.tables t).refcount - 1 }
    some ((s.setTable t files).setPc i .idle)
  | .closing t fd =>
    if fd < maxOpenFilesNum then
      match slot (s.tables t) fd with
      | none => some (s.setPc i (.closing t (fd + 1)))
      | some f =>
        let files := { s.tables t with fd := update (s.tables t).fd fd none }
        some ((s.setTable t files).setPc i (.putting f true (.closing t (fd + 1))))
    else some (s.setPc i (.freeing t))
  | .freeing t =>
    some ({ s with freed := update s.freed t (s.freed t + 1) }.setPc i .idle)

/-- One step of the task `i` -/
def Sys.step (i : Nat) (a : Act) : Option Sys :=
  if i < s.tasksNr then
    match a with
    | .go ok => s.proceed i ok (s.tasks i).pc
    | a =>
      match (s.tasks i).pc, (s.tasks i).files with
      | .idle, some t => s.begin i t a
      | _, _ => none
  else none

/-- A run, of tasks that take turns -/
def Sys.run : List (Nat × Act) → Sys → Option Sys
  | [], s => some s
  | (i, a) :: rest, s => (s.step i a).bind (run rest)

end ZzzOs.Fs.Fd.Smp
