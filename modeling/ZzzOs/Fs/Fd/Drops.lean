import ZzzOs.Fs.Fd.Interleave

/-!
# The last reference

With several tasks, each reference to a description is in a table or with a task, and the count is the
number of them; the same for the users of a table (`Good`). The count of a description is decremented in
one step and tested in a later one, so none or several tasks can notice that it is 0. The count of a
table is tested before it is decremented, so nobody notices when two tasks do both at a time.
-/

namespace ZzzOs.Fs.Fd.Smp

open Finset Nat Function Lib

variable {s s' r : Sys} {i j t u f g fd n : Nat} {files files' : FilesStruct} {x : Task}
  {pc old : Pc} {v : Option Nat} {tables tables' : Nat → FilesStruct} {d : Desc} {k : Next}

/-! ## References -/

/-- 1 for the same number, 0 for others -/
def one (a b : Nat) : Nat := if a = b then 1 else 0

@[simp] theorem one_self (a : Nat) : one a a = 1 := if_pos rfl

theorem one_of_ne {a b : Nat} (h : a ≠ b) : one a b = 0 := if_neg h

def Next.refs (f : Nat) : Next → Nat
  | .attach _ g => one g f
  | _ => 0

def Next.closes (t : Nat) : Next → Nat
  | .closing u _ => one u t
  | _ => 0

def Pc.refs (f : Nat) : Pc → Nat
  | .allocating g _ _ | .replacing _ g | .attaching _ g => one g f
  | .putting g _ k | .decrementing g _ k => one g f + k.refs f
  | .testing _ k | .releasing _ k => k.refs f
  | _ => 0

def Pc.tests (f : Nat) : Pc → Nat
  | .testing g _ => one g f
  | _ => 0

/-- The task is about to release the file. -/
def Pc.releases (f : Nat) : Pc → Nat
  | .releasing g _ => one g f
  | _ => 0

def Pc.uses (t : Nat) : Pc → Nat
  | .forking u | .dropping u | .leaving u => one u t
  | _ => 0

def Pc.closes (t : Nat) : Pc → Nat
  | .closing u _ | .freeing u => one u t
  | .putting _ _ k | .decrementing _ _ k | .testing _ k | .releasing _ k => k.closes t
  | _ => 0

/-- Two places count for the same, but for the references to files. -/
def Pc.Like (pc old : Pc) : Prop :=
  ∀ n, (pc.tests n, pc.releases n, pc.uses n, pc.closes n) =
    (old.tests n, old.releases n, old.uses n, old.closes n)

theorem Pc.like_iff : pc.Like old ↔ ∀ n, pc.tests n = old.tests n ∧
    pc.releases n = old.releases n ∧ pc.uses n = old.uses n ∧ pc.closes n = old.closes n := by
  simp only [Pc.Like, Prod.mk.injEq]

section

variable (k : Next)

@[simp] theorem Next.pc_refs : k.pc.refs f = k.refs f := by cases k <;> rfl

@[simp] theorem Next.pc_tests : k.pc.tests f = 0 := by cases k <;> rfl

@[simp] theorem Next.pc_releases : k.pc.releases f = 0 := by cases k <;> rfl

@[simp] theorem Next.pc_uses : k.pc.uses t = 0 := by cases k <;> rfl

@[simp] theorem Next.pc_closes : k.pc.closes t = k.closes t := by cases k <;> rfl

end

def Task.refs (f : Nat) (x : Task) : Nat := x.held.count f + x.pc.refs f

def Task.uses (t : Nat) (x : Task) : Nat := (if x.files = some t then 1 else 0) + x.pc.uses t

/-- A sum over all tasks -/
def Sys.sum (s : Sys) (q : Task → Nat) : Nat := ∑ i ∈ Finset.range s.tasksNr, q (s.tasks i)

/-- The descriptors that stand for a file -/
def Sys.slots (s : Sys) (f : Nat) : Nat := ∑ t ∈ Finset.range s.tablesNr, (s.tables t).refs f

/-- All references to a file -/
def Sys.refs (s : Sys) (f : Nat) : Nat := s.slots f + s.sum (Task.refs f)

def Sys.tests (s : Sys) (f : Nat) : Nat := s.sum fun x => x.pc.tests f

def Sys.releases (s : Sys) (f : Nat) : Nat := s.sum fun x => x.pc.releases f

/-- The users of a table -/
def Sys.users (s : Sys) (t : Nat) : Nat := s.sum (Task.uses t)

def Sys.closers (s : Sys) (t : Nat) : Nat := s.sum fun x => x.pc.closes t

theorem sum_setTask (hi : i < s.tasksNr) (q : Task → Nat) :
    (s.setTask i x).sum q + q (s.tasks i) = s.sum q + q x :=
  sum_update_add (mem_range.2 hi) (fun _ => q) s.tasks x

theorem le_sum (hi : i < s.tasksNr) (q : Task → Nat) : q (s.tasks i) ≤ s.sum q :=
  single_le_sum (f := fun i => q (s.tasks i)) (fun _ _ => zero_le _) (mem_range.2 hi)

structure Moves (i : Nat) (pc : Pc) (s s' : Sys) : Prop where
  refs : ∀ f, s'.sum (Task.refs f) + (s.tasks i).pc.refs f = s.sum (Task.refs f) + pc.refs f
  tests : ∀ f, s'.tests f + (s.tasks i).pc.tests f = s.tests f + pc.tests f
  releases : ∀ f, s'.releases f + (s.tasks i).pc.releases f = s.releases f + pc.releases f
  uses : ∀ t, s'.users t + (s.tasks i).pc.uses t = s.users t + pc.uses t
  closes : ∀ t, s'.closers t + (s.tasks i).pc.closes t = s.closers t + pc.closes t

private theorem moves_self (hi : i < s.tasksNr) : Moves i pc s (s.setPc i pc) where
  refs f := by
    have h : (s.setPc i pc).sum (Task.refs f) + Task.refs f (s.tasks i) =
      s.sum (Task.refs f) + ((s.tasks i).held.count f + pc.refs f) := sum_setTask hi _
    rw [show Task.refs f (s.tasks i) = (s.tasks i).held.count f + (s.tasks i).pc.refs f from rfl] at h
    omega
  tests f := sum_setTask hi fun x => x.pc.tests f
  releases f := sum_setTask hi fun x => x.pc.releases f
  uses t := by
    have h : (s.setPc i pc).users t + Task.uses t (s.tasks i) =
      s.users t + ((if (s.tasks i).files = some t then 1 else 0) + pc.uses t) := sum_setTask hi _
    rw [show Task.uses t (s.tasks i) =
      (if (s.tasks i).files = some t then 1 else 0) + (s.tasks i).pc.uses t from rfl] at h
    omega
  closes t := sum_setTask hi fun x => x.pc.closes t

/-- Only the task goes on; the tables and the counts may have changed. -/
theorem moves_setPc (hi : i < s.tasksNr) (htasks : r.tasks = s.tasks) (hnr : r.tasksNr = s.tasksNr) :
    Moves i pc s (r.setPc i pc) := by
  cases r
  subst htasks hnr
  have h : Moves i pc s (s.setPc i pc) := moves_self hi
  exact ⟨h.refs, h.tests, h.releases, h.uses, h.closes⟩

/-- 1 for a descriptor that stands for the file -/
def ind (v : Option Nat) (f : Nat) : Nat := if v = some f then 1 else 0

@[simp] theorem ind_none : ind none f = 0 := if_neg nofun

@[simp] theorem ind_some : ind (some g) f = one g f := by
  simp only [ind, one, Option.some.injEq]

theorem slots_setTable (ht : t < s.tablesNr) (hlt : fd < maxOpenFilesNum)
    (hfd : files.fd = update (s.tables t).fd fd v) (f : Nat) :
    (s.setTable t files).slots f + ind ((s.tables t).fd fd) f = s.slots f + ind v f := by
  have hsum : (s.setTable t files).slots f + (s.tables t).refs f = s.slots f + files.refs f :=
    sum_update_add (mem_range.2 ht) (fun _ files => FilesStruct.refs files f) s.tables files
  have hslot := refs_change (f := f) hlt hfd
  unfold ind
  omega

theorem slots_setTable_same (ht : t < s.tablesNr) (hfd : files.fd = (s.tables t).fd) (f : Nat) :
    (s.setTable t files).slots f = s.slots f := by
  have hself : files.fd = update (s.tables t).fd 0 ((s.tables t).fd 0) := by
    rw [update_eq_self]
    exact hfd
  have h := slots_setTable ht (by decide) hself f
  omega

theorem le_slots (ht : t < s.tablesNr) (hlt : fd < maxOpenFilesNum) (hslot : (s.tables t).fd fd = some f) :
    0 < s.slots f := sum_refs_pos ht hlt hslot

/-! ## The invariant -/

structure FileRight (s : Sys) (f : Nat) : Prop where
  used : 0 < s.refs f → (s.files f).released = 0 ∧ s.releases f = 0
  unused : s.refs f = 0 → (s.files f).released + s.tests f + s.releases f = 1

structure TableRight (s : Sys) (t : Nat) : Prop where
  used : 0 < s.users t → s.freed t = 0 ∧ s.closers t = 0
  unused : s.users t = 0 → s.freed t + s.closers t = 1

/-- The count is the number of the references. -/
structure FileGood (s : Sys) (f : Nat) : Prop where
  count : (s.files f).count = s.refs f
  strange : s.filesNr ≤ f → s.refs f = 0
  right : f < s.filesNr → FileRight s f

structure TableGood (s : Sys) (t : Nat) : Prop where
  strange : s.tablesNr ≤ t → s.users t = 0 ∧ s.closers t = 0
  init : t = initFiles → s.closers t = 0 ∧ s.freed t = 0
  count : t < s.tablesNr → t ≠ initFiles → s.freed t = 0 → (s.tables t).refcount = s.users t + s.closers t
  right : t < s.tablesNr → t ≠ initFiles → TableRight s t

/-- The first `n` descriptors were closed. -/
def Emptied (files : FilesStruct) (n : Nat) : Prop := ∀ fd < n, files.fd fd = none

def Next.Placed (tables : Nat → FilesStruct) : Next → Prop
  | .done => True
  | .attach fd _ => fd < maxOpenFilesNum
  | .closing t fd => Emptied (tables t) fd

/-- What is known where a task is: it closes the descriptors of a table in turn. -/
def Pc.Placed (tables : Nat → FilesStruct) : Pc → Prop
  | .replacing fd _ | .attaching fd _ => fd < maxOpenFilesNum
  | .putting _ _ k | .decrementing _ _ k | .testing _ k | .releasing _ k => k.Placed tables
  | .leaving t => t ≠ initFiles
  | .closing t fd => Emptied (tables t) fd
  | .freeing t => Emptied (tables t) maxOpenFilesNum
  | _ => True

theorem Next.pc_placed (k : Next) : k.pc.Placed tables ↔ k.Placed tables := by
  cases k <;> rfl

structure Places (s : Sys) : Prop where
  slots : ∀ t fd, (s.tables t).fd fd ≠ none → (s.tables t).openFds fd = true
  tasks : ∀ i < s.tasksNr, (s.tasks i).pc.Placed s.tables
  freed : ∀ t, 0 < s.freed t → Emptied (s.tables t) maxOpenFilesNum

structure Good (s : Sys) : Prop where
  files : ∀ f, FileGood s f
  tables : ∀ t, TableGood s t
  places : Places s

/-! ## The numbers of a file and of a table -/

theorem fileGood_iff : FileGood s f ↔ (s.files f).count = s.refs f ∧ (s.filesNr ≤ f → s.refs f = 0) ∧
    (f < s.filesNr → (0 < s.refs f → (s.files f).released = 0 ∧ s.releases f = 0) ∧
      (s.refs f = 0 → (s.files f).released + s.tests f + s.releases f = 1)) :=
  ⟨fun h => ⟨h.count, h.strange, fun hlt => ⟨(h.right hlt).used, (h.right hlt).unused⟩⟩,
    fun h => ⟨h.1, h.2.1, fun hlt => ⟨(h.2.2 hlt).1, (h.2.2 hlt).2⟩⟩⟩

theorem tableGood_iff : TableGood s t ↔ (s.tablesNr ≤ t → s.users t = 0 ∧ s.closers t = 0) ∧
    (t = initFiles → s.closers t = 0 ∧ s.freed t = 0) ∧
    (t < s.tablesNr → t ≠ initFiles →
      (s.freed t = 0 → (s.tables t).refcount = s.users t + s.closers t) ∧
      (0 < s.users t → s.freed t = 0 ∧ s.closers t = 0) ∧
      (s.users t = 0 → s.freed t + s.closers t = 1)) :=
  ⟨fun h => ⟨h.strange, h.init, fun hlt hne =>
      ⟨h.count hlt hne, (h.right hlt hne).used, (h.right hlt hne).unused⟩⟩,
    fun h => ⟨h.1, h.2.1, fun hlt hne => (h.2.2 hlt hne).1,
      fun hlt hne => ⟨(h.2.2 hlt hne).2.1, (h.2.2 hlt hne).2.2⟩⟩⟩

@[simp] theorem setPc_files : (s.setPc i pc).files = s.files := rfl

@[simp] theorem setPc_filesNr : (s.setPc i pc).filesNr = s.filesNr := rfl

@[simp] theorem setPc_tables : (s.setPc i pc).tables = s.tables := rfl

@[simp] theorem setPc_tablesNr : (s.setPc i pc).tablesNr = s.tablesNr := rfl

@[simp] theorem setPc_freed : (s.setPc i pc).freed = s.freed := rfl

section

variable {old : Pc} (r pc) (hi : i < s.tasksNr) (hpc : (s.tasks i).pc = old) (htasks : r.tasks = s.tasks)
  (hnr : r.tasksNr = s.tasksNr)

include hi hpc htasks hnr

/-- The numbers of a file after a task has gone on. -/
theorem file_totals (f : Nat) :
    (r.setPc i pc).refs f + old.refs f + s.slots f = s.refs f + pc.refs f + r.slots f ∧
      (r.setPc i pc).tests f + old.tests f = s.tests f + pc.tests f ∧
      (r.setPc i pc).releases f + old.releases f = s.releases f + pc.releases f := by
  have hm : Moves i pc s (r.setPc i pc) := moves_setPc hi htasks hnr
  have hrefs := hm.refs f
  have hslots : (r.setPc i pc).slots f = r.slots f := rfl
  rw [hpc] at hrefs
  refine ⟨?_, hpc ▸ hm.tests f, hpc ▸ hm.releases f⟩
  unfold Sys.refs
  omega

theorem table_totals (t : Nat) :
    (r.setPc i pc).users t + old.uses t = s.users t + pc.uses t ∧
      (r.setPc i pc).closers t + old.closes t = s.closers t + pc.closes t := by
  have hm : Moves i pc s (r.setPc i pc) := moves_setPc hi htasks hnr
  exact ⟨hpc ▸ hm.uses t, hpc ▸ hm.closes t⟩

end

theorem Places.setTask (h : Places s) (hpc : x.pc.Placed s.tables) : Places (s.setTask i x) where
  slots := h.slots
  tasks j hj := by
    show (update s.tasks i x j).pc.Placed s.tables
    exact update_cases (fun _ => hpc) fun _ => h.tasks j hj
  freed := h.freed

theorem Places.setPc (h : Places s) (hpc : pc.Placed s.tables) : Places (s.setPc i pc) := h.setTask hpc

theorem Pc.Placed.mono (h : pc.Placed tables)
    (hempty : ∀ t n, 0 < pc.closes t → Emptied (tables t) n → Emptied (tables' t) n) : pc.Placed tables' := by
  have hnext : ∀ k : Next, k.Placed tables →
      (∀ t n, 0 < k.closes t → Emptied (tables t) n → Emptied (tables' t) n) → k.Placed tables' := by
    intro k hk hk'
    cases k with
    | done => trivial
    | attach fd f => exact hk
    | closing t fd => exact hk' t fd (by simp [Next.closes]) hk
  cases pc with
  | replacing | attaching | leaving => exact h
  | putting _ _ k | decrementing _ _ k | testing _ k | releasing _ k => exact hnext k h hempty
  | closing t fd => exact hempty t fd (by simp [Pc.closes]) h
  | freeing t => exact hempty t maxOpenFilesNum (by simp [Pc.closes]) h
  | _ => trivial

theorem Places.setTable (h : Places s) (hopen : ∀ fd, files.fd fd ≠ none → files.openFds fd = true)
    (hempty : ∀ n, (∃ j < s.tasksNr, 0 < (s.tasks j).pc.closes t) ∨ 0 < s.freed t →
      Emptied (s.tables t) n → Emptied files n) : Places (s.setTable t files) where
  slots u fd := by
    show (update s.tables t files u).fd fd ≠ none → (update s.tables t files u).openFds fd = true
    exact update_cases (fun _ => hopen fd) fun _ => h.slots u fd
  tasks j hj := by
    refine (h.tasks j hj).mono fun u n hpos hold => ?_
    show Emptied (update s.tables t files u) n
    refine update_cases (fun hu => ?_) fun _ => hold
    subst hu
    exact hempty n (.inl ⟨j, hj, hpos⟩) hold
  freed u hpos := by
    show Emptied (update s.tables t files u) maxOpenFilesNum
    refine update_cases (fun hu => ?_) fun _ => h.freed u hpos
    subst hu
    exact hempty _ (.inr hpos) (h.freed u hpos)

theorem Places.setRefcount (h : Places s) (n : Nat) :
    Places (s.setTable t { s.tables t with refcount := n }) :=
  h.setTable (h.slots t) fun _ _ => id

theorem emptied_update (h : Emptied files n) (fd : Nat) :
    ∀ fd' < n, update files.fd fd none fd' = none :=
  fun fd' hfd' => update_cases (fun _ => rfl) fun _ => h fd' hfd'

section

variable {old : Pc}

section

variable (h : Good s) (hi : i < s.tasksNr) (hpc : (s.tasks i).pc = old)

include h hi hpc

/-- The references to files that a task has and those in the tables add up to the same. -/
theorem Good.files_setPc (htasks : r.tasks = s.tasks) (hnr : r.tasksNr = s.tasksNr)
    (hfiles : r.files = s.files) (hfilesNr : r.filesNr = s.filesNr)
    (hrefs : ∀ f, r.slots f + pc.refs f = s.slots f + old.refs f)
    (htests : ∀ f, pc.tests f = old.tests f) (hreleases : ∀ f, pc.releases f = old.releases f)
    (f : Nat) : FileGood (r.setPc i pc) f := by
  have hgood := fileGood_iff.1 (h.files f)
  have htotals := file_totals r pc hi hpc htasks hnr f
  have hmoved := hrefs f
  rw [htests f, hreleases f] at htotals
  rw [fileGood_iff, setPc_files, setPc_filesNr, hfiles, hfilesNr]
  omega

theorem Good.tables_setPc (htasks : r.tasks = s.tasks) (hnr : r.tasksNr = s.tasksNr)
    (hcount : ∀ t, (r.tables t).refcount = (s.tables t).refcount) (hfreed : r.freed = s.freed)
    (htablesNr : r.tablesNr = s.tablesNr) (huses : ∀ t, pc.uses t = old.uses t)
    (hcloses : ∀ t, pc.closes t = old.closes t) (t : Nat) : TableGood (r.setPc i pc) t := by
  have hgood := tableGood_iff.1 (h.tables t)
  have htotals := table_totals r pc hi hpc htasks hnr t
  rw [huses t, hcloses t] at htotals
  rw [tableGood_iff, setPc_tables, setPc_tablesNr, setPc_freed, hcount, hfreed, htablesNr]
  omega

theorem Good.move (hrefs : ∀ f, pc.refs f = old.refs f) (hlike : pc.Like old)
    (hplaced : pc.Placed s.tables) : Good (s.setPc i pc) where
  files := h.files_setPc hi hpc rfl rfl rfl rfl (fun f => by rw [hrefs])
    (fun f => (Pc.like_iff.1 hlike f).1) fun f => (Pc.like_iff.1 hlike f).2.1
  tables := h.tables_setPc hi hpc rfl rfl (fun _ => rfl) rfl rfl
    (fun t => (Pc.like_iff.1 hlike t).2.2.1) fun t => (Pc.like_iff.1 hlike t).2.2.2
  places := h.places.setPc hplaced

end

theorem refcount_setTable (h : files.refcount = (s.tables t).refcount) (u : Nat) :
    ((s.setTable t files).tables u).refcount = (s.tables u).refcount := by
  show (update s.tables t files u).refcount = _
  exact update_cases (fun hu => by rw [h, hu]) fun _ => rfl

/-- A reference goes from a table to the task, or from the task to a table. -/
theorem Good.slot (h : Good s) (hi : i < s.tasksNr) (hpc : (s.tasks i).pc = old)
    (ht : t < s.tablesNr) (hlt : fd < maxOpenFilesNum)
    (hfd : files.fd = update (s.tables t).fd fd v)
    (hrefcount : files.refcount = (s.tables t).refcount)
    (hrefs : ∀ f, pc.refs f + ind v f = old.refs f + ind ((s.tables t).fd fd) f)
    (hlike : pc.Like old) (hplaces : Places (s.setTable t files))
    (hplaced : pc.Placed (s.setTable t files).tables) :
    Good ((s.setTable t files).setPc i pc) where
  files := by
    refine h.files_setPc hi hpc rfl rfl rfl rfl (fun f => ?_) (fun f => (Pc.like_iff.1 hlike f).1)
      fun f => (Pc.like_iff.1 hlike f).2.1
    have hslots := slots_setTable ht hlt hfd f
    have hmoved := hrefs f
    omega
  tables := h.tables_setPc hi hpc rfl rfl (refcount_setTable hrefcount) rfl rfl
    (fun t => (Pc.like_iff.1 hlike t).2.2.1) fun t => (Pc.like_iff.1 hlike t).2.2.2
  places := hplaces.setPc hplaced

end

/-! ## Tables in use -/

theorem Good.table_lt (h : Good s) (hpos : 0 < s.users t + s.closers t) : t < s.tablesNr := by
  by_contra hge
  have := (h.tables t).strange (Nat.le_of_not_lt hge)
  omega

theorem Good.users_pos (hi : i < s.tasksNr) (hfiles : (s.tasks i).files = some t) : 0 < s.users t := by
  have hle : Task.uses t (s.tasks i) ≤ s.users t := le_sum hi (Task.uses t)
  unfold Task.uses at hle
  rw [if_pos hfiles] at hle
  omega

theorem Good.open_of_users (h : Good s) (hpos : 0 < s.users t) : s.freed t = 0 ∧ s.closers t = 0 := by
  have hlt := h.table_lt (t := t) (by omega)
  by_cases hinit : t = initFiles
  · exact ((h.tables t).init hinit).symm
  · exact ((h.tables t).right hlt hinit).used hpos

theorem Good.not_closed (h : Good s) (hpos : 0 < s.users t)
    (hclosed : (∃ j < s.tasksNr, 0 < (s.tasks j).pc.closes t) ∨ 0 < s.freed t) : False := by
  obtain ⟨hfreed, hclosers⟩ := h.open_of_users hpos
  rcases hclosed with ⟨j, hj, hcloses⟩ | hpos
  · have hle : (s.tasks j).pc.closes t ≤ s.closers t := le_sum hj fun x => x.pc.closes t
    omega
  · omega

theorem Good.refs_pos_of_pc (hi : i < s.tasksNr) (hpos : 0 < (s.tasks i).pc.refs f) : 0 < s.refs f := by
  have hle : (s.tasks i).held.count f + (s.tasks i).pc.refs f ≤ s.sum (Task.refs f) := le_sum hi (Task.refs f)
  unfold Sys.refs
  omega

theorem slot_some (h : slot files fd = some f) : fd < maxOpenFilesNum ∧ files.fd fd = some f := by
  unfold slot at h
  split_ifs at h with hopen
  exact ⟨hopen.1, h⟩

theorem closeSection_some (h : closeSection files fd = some (f, files')) :
    fd < maxOpenFilesNum ∧ files.fd fd = some f ∧ files' = files.drop fd := by
  unfold closeSection at h
  split_ifs at h with hlt
  obtain ⟨g, hg, heq⟩ := Option.map_eq_some_iff.1 h
  cases heq
  exact ⟨hlt, hg, rfl⟩

theorem users_pos_of_pc (hi : i < s.tasksNr) (hpc : 0 < (s.tasks i).pc.uses t) : 0 < s.users t := by
  have hle : Task.uses t (s.tasks i) ≤ s.users t := le_sum hi (Task.uses t)
  unfold Task.uses at hle
  omega

theorem closers_pos_of_pc (hi : i < s.tasksNr) (hpc : 0 < (s.tasks i).pc.closes t) : 0 < s.closers t :=
  lt_of_lt_of_le hpc (le_sum hi fun x => x.pc.closes t)

theorem one_self_pos : 0 < one t t := by
  rw [one_self]
  exact one_pos

theorem setTable_self : (s.setTable t files).tables t = files := update_self ..

theorem setTable_other (hne : u ≠ t) : (s.setTable t files).tables u = s.tables u :=
  update_of_ne hne ..

theorem setTable_tablesNr : (s.setTable t files).tablesNr = s.tablesNr := rfl

theorem setTable_freed : (s.setTable t files).freed = s.freed := rfl

/-! ## Files -/

theorem setDesc_self : (s.setDesc f d).files f = d := update_self ..

theorem setDesc_other (hne : g ≠ f) : (s.setDesc f d).files g = s.files g :=
  update_of_ne hne ..

theorem setDesc_filesNr : (s.setDesc f d).filesNr = s.filesNr := rfl

theorem setDesc_slots : (s.setDesc f d).slots g = s.slots g := rfl

theorem Places.setDesc (h : Places s) : Places (s.setDesc f d) := ⟨h.slots, h.tasks, h.freed⟩

section

variable (h : Good s) (hi : i < s.tasksNr)

include h hi

/-- A task gets `n` references to a file, or goes on with those it has. -/
theorem Good.get (n : Nat) (hpos : n = 0 ∨ 0 < s.refs f)
    (hrefs : ∀ g, Task.refs g x = Task.refs g (s.tasks i) + n * one f g)
    (hfiles : x.files = (s.tasks i).files) (hlike : x.pc.Like (s.tasks i).pc)
    (hplaced : x.pc.Placed s.tables) :
    Good ((s.setDesc f { s.files f with count := (s.files f).count + n }).setTask i x) := by
  obtain ⟨s', hs'⟩ : ∃ s', s' = (s.setDesc f
    { s.files f with count := (s.files f).count + n }).setTask i x := ⟨_, rfl⟩
  have hsum : ∀ q : Task → Nat, s'.sum q + q (s.tasks i) = s.sum q + q x := fun q =>
    hs' ▸ sum_setTask hi q
  have hslots : ∀ g, s'.slots g = s.slots g := fun g => hs' ▸ rfl
  have hfilesNr : s'.filesNr = s.filesNr := hs' ▸ rfl
  rw [← hs']
  refine ⟨fun g => ?_, fun t => ?_, ?_⟩
  · have hgood := fileGood_iff.1 (h.files g)
    have hs := hsum (Task.refs g)
    have ht := hsum fun x => x.pc.tests g
    have hr := hsum fun x => x.pc.releases g
    have hslot := hslots g
    rw [hrefs] at hs
    rw [(Pc.like_iff.1 hlike g).1] at ht
    rw [(Pc.like_iff.1 hlike g).2.1] at hr
    rw [fileGood_iff, hfilesNr]
    unfold Sys.refs Sys.tests Sys.releases at *
    by_cases hg : f = g
    · subst hg
      have hfile : s'.files f = { s.files f with count := (s.files f).count + n } := hs' ▸ setDesc_self
      rw [one_self, Nat.mul_one] at hs
      rw [hfile]
      dsimp only
      omega
    · have hfile : s'.files g = s.files g := hs' ▸ setDesc_other (Ne.symm hg)
      rw [one_of_ne hg, Nat.mul_zero] at hs
      rw [hfile]
      omega
  · have hgood := tableGood_iff.1 (h.tables t)
    have hu := hsum (Task.uses t)
    have hc := hsum fun x => x.pc.closes t
    have htables : s'.tables = s.tables ∧ s'.tablesNr = s.tablesNr ∧ s'.freed = s.freed :=
      hs' ▸ ⟨rfl, rfl, rfl⟩
    have huses : Task.uses t x = Task.uses t (s.tasks i) := by
      rw [Task.uses, Task.uses, hfiles, (Pc.like_iff.1 hlike t).2.2.1]
    rw [(Pc.like_iff.1 hlike t).2.2.2] at hc
    rw [tableGood_iff, htables.1, htables.2.1, htables.2.2]
    unfold Sys.users Sys.closers at *
    omega
  · rw [hs']
    exact h.places.setDesc.setTask hplaced

theorem Good.next_placed (hpc : (s.tasks i).pc.Placed s.tables ↔ k.Placed s.tables) :
    k.Placed s.tables :=
  hpc.1 (h.places.tasks i hi)

/-- The decrement that leaves no reference has to leave one task that tests. -/
theorem Good.decrement_iff {last : Bool} (hpc : (s.tasks i).pc = .decrementing f last k) :
    Good ((s.setDesc f { s.files f with count := (s.files f).count - 1 }).setPc i
      (if last then .testing f k else k.pc)) ↔
      ((s.files f).count = 1 → s.tests f + (if last then 1 else 0) = 1) := by
  have hplaced : k.Placed s.tables := h.next_placed hi (by rw [hpc]; rfl)
  -- what the next step of the task counts for
  have htotals := file_totals (s.setDesc f { s.files f with count := (s.files f).count - 1 })
    (if last then .testing f k else k.pc) hi hpc rfl rfl
  have hnext : ∀ g, (if last then Pc.testing f k else k.pc).refs g = k.refs g ∧
      (if last then Pc.testing f k else k.pc).tests g = (if last then one f g else 0) ∧
      (if last then Pc.testing f k else k.pc).releases g = 0 := by
    intro g
    cases last with
    | true => exact ⟨rfl, rfl, rfl⟩
    | false => exact ⟨k.pc_refs, k.pc_tests, k.pc_releases⟩
  simp only [hnext, setDesc_slots] at htotals
  simp only [Pc.refs, Pc.tests, Pc.releases] at htotals
  have hself := htotals f
  have hgood := fileGood_iff.1 (h.files f)
  rw [one_self] at hself
  constructor
  · intro hafter hone
    have hlast := fileGood_iff.1 (hafter.files f)
    rw [setPc_files, setPc_filesNr, setDesc_self, setDesc_filesNr] at hlast
    dsimp only at hlast
    omega
  · intro hfine
    refine ⟨fun g => ?_, h.tables_setPc hi hpc rfl rfl (fun _ => rfl) rfl rfl (fun t => ?_) (fun t => ?_),
      h.places.setDesc.setPc ?_⟩
    · rw [fileGood_iff, setPc_files, setPc_filesNr]
      by_cases hg : f = g
      · subst hg
        rw [setDesc_self, setDesc_filesNr]
        dsimp only
        omega
      · have hother := htotals g
        have hold := fileGood_iff.1 (h.files g)
        rw [one_of_ne hg, ite_self] at hother
        rw [setDesc_other (Ne.symm hg), setDesc_filesNr]
        dsimp only
        omega
    · cases last with
      | true => rfl
      | false => exact k.pc_uses
    · cases last with
      | true => rfl
      | false => exact k.pc_closes
    · cases last with
      | true => exact hplaced
      | false => exact k.pc_placed.2 hplaced

theorem Good.test (hpc : (s.tasks i).pc = .testing f k) :
    Good (s.setPc i (if (s.files f).count = 0 then .releasing f k else k.pc)) := by
  have hplaced : k.Placed s.tables := h.next_placed hi (by rw [hpc]; rfl)
  have hfile (pc : Pc) (g : Nat) (hrefs : pc.refs g = k.refs g) (htests : pc.tests g = 0)
      (hreleases : pc.releases g = if (s.files f).count = 0 then one f g else 0) :
      FileGood (s.setPc i pc) g := by
    have htotals := file_totals s pc hi hpc rfl rfl g
    have hgood := fileGood_iff.1 (h.files g)
    rw [hrefs, htests, hreleases] at htotals
    simp only [Pc.refs, Pc.tests, Pc.releases] at htotals
    rw [fileGood_iff, setPc_files, setPc_filesNr]
    by_cases hg : f = g
    · subst hg
      split_ifs at htotals <;> omega
    · rw [one_of_ne hg, ite_self] at htotals
      omega
  split_ifs with hzero
  · exact ⟨fun g => hfile _ g rfl rfl (if_pos hzero).symm, h.tables_setPc hi hpc rfl rfl (fun _ => rfl)
      rfl rfl (fun _ => rfl) fun _ => rfl, h.places.setPc hplaced⟩
  · exact ⟨fun g => hfile _ g k.pc_refs k.pc_tests (k.pc_releases.trans (if_neg hzero).symm),
      h.tables_setPc hi hpc rfl rfl (fun _ => rfl) rfl rfl (fun _ => k.pc_uses) fun _ => k.pc_closes,
      h.places.setPc (k.pc_placed.2 hplaced)⟩

theorem Good.release (hpc : (s.tasks i).pc = .releasing f k) :
    Good ((s.setDesc f { s.files f with released := (s.files f).released + 1 }).setPc i k.pc) := by
  have hplaced : k.Placed s.tables := h.next_placed hi (by rw [hpc]; rfl)
  refine ⟨fun g => ?_, h.tables_setPc hi hpc rfl rfl (fun _ => rfl) rfl rfl (fun _ => k.pc_uses)
    (fun _ => k.pc_closes), h.places.setDesc.setPc (k.pc_placed.2 hplaced)⟩
  have htotals := file_totals (s.setDesc f { s.files f with released := (s.files f).released + 1 })
    k.pc hi hpc rfl rfl g
  have hgood := fileGood_iff.1 (h.files g)
  rw [k.pc_refs, k.pc_tests, k.pc_releases, setDesc_slots] at htotals
  simp only [Pc.refs, Pc.tests, Pc.releases] at htotals
  rw [fileGood_iff, setPc_files, setPc_filesNr]
  by_cases hg : f = g
  · -- a file that a task is about to release has no more references
    subst hg
    rw [one_self] at htotals
    rw [setDesc_self, setDesc_filesNr]
    dsimp only
    omega
  · rw [one_of_ne hg] at htotals
    rw [setDesc_other (Ne.symm hg), setDesc_filesNr]
    dsimp only
    omega

/-! ## Users of tables -/

/-- `put_files_struct` reads a count of 1: the task is the last user, and closes the table. -/
theorem Good.close_table (hpc : (s.tasks i).pc = .dropping t) (hinit : t ≠ initFiles)
    (hcount : (s.tables t).refcount ≤ 1) : Good (s.setPc i (.closing t 0)) := by
  refine ⟨h.files_setPc hi hpc rfl rfl rfl rfl (fun _ => rfl) (fun _ => rfl) (fun _ => rfl), fun u => ?_,
    h.places.setPc nofun⟩
  have htotals := table_totals s (.closing t 0) hi hpc rfl rfl u
  have hgood := tableGood_iff.1 (h.tables u)
  simp only [Pc.uses, Pc.closes] at htotals
  rw [tableGood_iff, setPc_tables, setPc_tablesNr, setPc_freed]
  by_cases hu : t = u
  · subst hu
    omega
  · rw [one_of_ne hu] at htotals
    omega

/-- A user of a table is gone; the count must not get 0, because nobody closes the table then. -/
theorem Good.leave_iff (hpc : (s.tasks i).pc = .leaving t) (hinit : t ≠ initFiles) :
    Good ((s.setTable t { s.tables t with refcount := (s.tables t).refcount - 1 }).setPc i .idle) ↔
      (s.tables t).refcount ≠ 1 := by
  obtain ⟨files, hfiles⟩ : ∃ files, files = { s.tables t with refcount := (s.tables t).refcount - 1 } := ⟨_, rfl⟩
  have hcount : files.refcount = (s.tables t).refcount - 1 := hfiles ▸ rfl
  rw [← hfiles]
  have htotals := table_totals (s.setTable t files) .idle hi hpc rfl rfl
  simp only [Pc.uses, Pc.closes] at htotals
  have hself := htotals t
  have hold := tableGood_iff.1 (h.tables t)
  rw [one_self] at hself
  constructor
  · intro hgood hone
    have hlast := tableGood_iff.1 (hgood.tables t)
    rw [setPc_tables, setPc_tablesNr, setPc_freed, setTable_self, setTable_tablesNr,
      setTable_freed] at hlast
    omega
  · intro hne
    have hlt : t < s.tablesNr := h.table_lt (by omega)
    refine ⟨h.files_setPc hi hpc rfl rfl rfl rfl (fun f => ?_) (fun _ => rfl) (fun _ => rfl), fun u => ?_, ?_⟩
    · exact congrArg (· + 0) (slots_setTable_same hlt (hfiles ▸ rfl) f)
    · rw [tableGood_iff, setPc_tables, setPc_tablesNr, setPc_freed, setTable_tablesNr, setTable_freed]
      by_cases hu : t = u
      · subst hu
        rw [setTable_self]
        omega
      · have hother := htotals u
        have hgood := tableGood_iff.1 (h.tables u)
        rw [one_of_ne hu] at hother
        rw [setTable_other (Ne.symm hu)]
        omega
    · exact Places.setPc (hfiles ▸ h.places.setRefcount _) trivial

theorem Good.free_table (hpc : (s.tasks i).pc = .freeing t) :
    Good (({ s with freed := update s.freed t (s.freed t + 1) } : Sys).setPc i .idle) := by
  obtain ⟨freed, hfreed⟩ : ∃ freed, freed = update s.freed t (s.freed t + 1) := ⟨_, rfl⟩
  have hself : freed t = s.freed t + 1 := hfreed ▸ update_self ..
  have hother : ∀ u, u ≠ t → freed u = s.freed u := fun u hu => hfreed ▸ update_of_ne hu ..
  rw [← hfreed]
  refine ⟨h.files_setPc hi hpc rfl rfl rfl rfl (fun _ => rfl) (fun _ => rfl) (fun _ => rfl), fun u => ?_, ?_⟩
  · have htotals := table_totals { s with freed := freed } .idle hi hpc rfl rfl u
    have hgood := tableGood_iff.1 (h.tables u)
    simp only [Pc.uses, Pc.closes] at htotals
    rw [tableGood_iff, setPc_tables, setPc_tablesNr, setPc_freed]
    dsimp only
    by_cases hu : t = u
    · subst hu
      rw [one_self] at htotals
      omega
    · rw [one_of_ne hu] at htotals
      rw [hother u (Ne.symm hu)]
      omega
  · have hplaced := h.places.tasks i hi
    rw [hpc] at hplaced
    refine Places.setPc ⟨h.places.slots, h.places.tasks, fun u hpos => ?_⟩ trivial
    by_cases hu : u = t
    · subst hu
      exact hplaced
    · change 0 < freed u at hpos
      rw [hother u hu] at hpos
      exact h.places.freed u hpos

end

end ZzzOs.Fs.Fd.Smp
