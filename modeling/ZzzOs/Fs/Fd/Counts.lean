import Mathlib.Algebra.Order.BigOperators.Group.Finset
import Mathlib.Data.Multiset.Count
import ZzzOs.Fs.Fd.Access
import ZzzOs.Lib.Multisum

/-!
# References to descriptions

The count of a description is the number of the descriptors that stand for it, and of the references
that the running call holds (`Good`). A descriptor that has been allocated is not in order until a
description is attached to it, so both are one step here (`FilesStruct.install`).
-/

namespace ZzzOs.Fs.Fd

open Finset Function Multiset Lib Nat

variable {s s' s'' : Sys} {K K' : Multiset Nat} {t f g fd n : Nat} {files files' : FilesStruct}
  {cloexec mem : Bool} {E : Crash → Sys → Prop} {slot : Option Nat} {file : Option File}

/-! ## Tables -/

/-- A descriptor is marked as open if and only if it stands for a description, and only those that are
open are closed on `exec`. -/
structure FilesStruct.Consistent (files : FilesStruct) : Prop where
  slots : ∀ fd, files.openFds fd = (files.fd fd).isSome
  bound : ∀ fd, maxOpenFilesNum ≤ fd → files.fd fd = none
  cloexec : ∀ fd, files.closeOnExec fd = true → files.openFds fd = true

def FilesStruct.install (files : FilesStruct) (fd f : Nat) (cloexec : Bool) : FilesStruct :=
  { files with
    openFds := update files.openFds fd true
    closeOnExec := update files.closeOnExec fd cloexec
    fd := update files.fd fd (some f)
    nextFd := fd + 1 }

section

variable (h : files.Consistent)

include h

theorem FilesStruct.Consistent.bound_of_open (hopen : files.openFds fd = true) :
    fd < maxOpenFilesNum := by
  by_contra hge
  rw [h.slots, h.bound fd (Nat.le_of_not_lt hge)] at hopen
  cases hopen

theorem FilesStruct.Consistent.open_of_slot (hslot : files.fd fd = some f) :
    files.openFds fd = true := by
  rw [h.slots, hslot]
  rfl

theorem FilesStruct.Consistent.closed : files.openFds fd = false ↔ files.fd fd = none := by
  rw [h.slots]
  cases files.fd fd <;> simp

theorem FilesStruct.Consistent.change
    (hlt : fd < maxOpenFilesNum) (hself : files'.openFds fd = (files'.fd fd).isSome)
    (hcloexec : files'.closeOnExec fd = true → files'.openFds fd = true)
    (hother : ∀ fd' ≠ fd, files'.openFds fd' = files.openFds fd' ∧ files'.fd fd' = files.fd fd' ∧
      files'.closeOnExec fd' = files.closeOnExec fd') : files'.Consistent where
  slots fd' := by
    by_cases hne : fd' = fd
    · rw [hne]
      exact hself
    · rw [(hother fd' hne).1, (hother fd' hne).2.1]
      exact h.slots fd'
  bound fd' hle := by
    rw [(hother fd' (by omega)).2.1]
    exact h.bound fd' hle
  cloexec fd' := by
    by_cases hne : fd' = fd
    · rw [hne]
      exact hcloexec
    · rw [(hother fd' hne).1, (hother fd' hne).2.2]
      exact h.cloexec fd'

end

section

variable (h : files.Consistent)

include h

section

variable (hlt : fd < maxOpenFilesNum)

include hlt

theorem FilesStruct.Consistent.install : (files.install fd f cloexec).Consistent := by
  have hopen : (files.install fd f cloexec).openFds fd = true := update_self ..
  refine h.change hlt ?_ (fun _ => hopen) fun fd' hne =>
    ⟨update_of_ne hne .., update_of_ne hne .., update_of_ne hne ..⟩
  rw [hopen]
  show true = (update files.fd fd (some f) fd).isSome
  rw [update_self]
  rfl

theorem FilesStruct.Consistent.attach : (files.attach fd f).Consistent := by
  have hopen : (files.attach fd f).openFds fd = true := update_self ..
  refine h.change hlt ?_ (fun _ => hopen) fun fd' hne => ⟨update_of_ne hne .., update_of_ne hne .., rfl⟩
  rw [hopen]
  show true = (update files.fd fd (some f) fd).isSome
  rw [update_self]
  rfl

theorem FilesStruct.Consistent.drop : (files.drop fd).Consistent := by
  have hopen : (files.drop fd).openFds fd = false := update_self ..
  have hcloexec : (files.drop fd).closeOnExec fd = false := update_self ..
  refine h.change hlt ?_ (fun hset => ?_) fun fd' hne =>
    ⟨update_of_ne hne .., update_of_ne hne .., update_of_ne hne ..⟩
  · rw [hopen]
    show false = (update files.fd fd none fd).isSome
    rw [update_self]
    rfl
  · rw [hcloexec] at hset
    cases hset

end

theorem FilesStruct.Consistent.setCloexec (cloexec : Bool) (hopen : files.openFds fd = true) :
    ({ files with closeOnExec := update files.closeOnExec fd cloexec } : FilesStruct).Consistent :=
  h.change (h.bound_of_open hopen) (h.slots fd) (fun _ => hopen) fun _ hne => ⟨rfl, rfl, update_of_ne hne ..⟩

theorem FilesStruct.Consistent.setRefcount (n : Nat) :
    ({ files with refcount := n } : FilesStruct).Consistent :=
  ⟨h.slots, h.bound, h.cloexec⟩

theorem FilesStruct.Consistent.copy_fd : files.copy.fd = files.fd := by
  funext fd
  show (if decide (fd < maxOpenFilesNum) && files.openFds fd && (files.fd fd).isSome then files.fd fd
    else none) = files.fd fd
  cases hfd : files.fd fd with
  | none => simp
  | some f =>
    have hopen := h.open_of_slot hfd
    have hlt := h.bound_of_open hopen
    simp [hopen, hlt]

theorem FilesStruct.Consistent.copy_openFds : files.copy.openFds = files.openFds := by
  funext fd
  show (decide (fd < maxOpenFilesNum) && files.openFds fd && (files.fd fd).isSome) = files.openFds fd
  cases hopen : files.openFds fd with
  | false => simp
  | true =>
    have hlt := h.bound_of_open hopen
    have hslot := h.slots fd
    rw [hopen] at hslot
    simp [hlt, ← hslot]

theorem FilesStruct.Consistent.copy_closeOnExec : files.copy.closeOnExec = files.closeOnExec := by
  funext fd
  show (files.copy.openFds fd && files.closeOnExec fd) = files.closeOnExec fd
  rw [h.copy_openFds]
  cases hset : files.closeOnExec fd with
  | false => simp
  | true => simp [h.cloexec fd hset]

theorem FilesStruct.Consistent.copy : files.copy.Consistent where
  slots := by
    rw [h.copy_openFds, h.copy_fd]
    exact h.slots
  bound := by
    rw [h.copy_fd]
    exact h.bound
  cloexec := by
    rw [h.copy_openFds, h.copy_closeOnExec]
    exact h.cloexec

end

/-! ## Counts -/

def FilesStruct.refs (files : FilesStruct) (f : Nat) : Nat :=
  ∑ fd ∈ Finset.range maxOpenFilesNum, if files.fd fd = some f then 1 else 0

def Sys.refs (s : Sys) (f : Nat) : Nat := ∑ t ∈ Finset.range s.tablesNr, (s.tables t).refs f

/-- `f_count`, 0 for what is not a description -/
def Sys.count (s : Sys) (f : Nat) : Nat := (s.files f).elim 0 File.fCount

theorem refs_change (hlt : fd < maxOpenFilesNum) (hfd : files'.fd = update files.fd fd slot) :
    files'.refs f + (if files.fd fd = some f then 1 else 0) =
      files.refs f + if slot = some f then 1 else 0 := by
  unfold FilesStruct.refs
  rw [hfd]
  exact sum_update_add (mem_range.2 hlt) (fun _ r => if r = some f then 1 else 0) files.fd slot

theorem setTable_refs (ht : t < s.tablesNr) :
    (s.setTable t files).refs f + (s.tables t).refs f = s.refs f + files.refs f :=
  sum_update_add (mem_range.2 ht) (fun _ files => FilesStruct.refs files f) s.tables files

theorem sum_refs_pos {tables : Nat → FilesStruct} (ht : t < n) (hlt : fd < maxOpenFilesNum)
    (hslot : (tables t).fd fd = some f) : 0 < ∑ t ∈ Finset.range n, (tables t).refs f := by
  refine Finset.sum_pos_iff.2 ⟨t, Finset.mem_range.2 ht, Finset.sum_pos_iff.2 ⟨fd, ?_⟩⟩
  rw [if_pos hslot]
  exact ⟨Finset.mem_range.2 hlt, one_pos⟩

theorem refs_pos (ht : t < s.tablesNr) (hlt : fd < maxOpenFilesNum) (hslot : (s.tables t).fd fd = some f) :
    0 < s.refs f := sum_refs_pos ht hlt hslot

/-- The tables are consistent, and all references are counted, with `K` for those of the running
call. -/
structure Good (K : Multiset Nat) (s : Sys) : Prop where
  tables : ∀ t < s.tablesNr, (s.tables t).Consistent
  counts : ∀ f, s.count f = s.refs f + K.count f
  live : ∀ f file, s.files f = some file → 0 < file.fCount
  fresh : ∀ f, s.serial ≤ f → s.files f = none

theorem Good.allocated (h : Good K s) (hpos : 0 < s.refs f + K.count f) :
    ∃ file, s.files f = some file ∧ file.fCount = s.refs f + K.count f := by
  have hcount := h.counts f
  unfold Sys.count at hcount
  cases hfile : s.files f with
  | none =>
    rw [hfile] at hcount
    exact absurd hcount hpos.ne
  | some file =>
    rw [hfile] at hcount
    exact ⟨file, rfl, hcount⟩

theorem Good.held (h : Good (f ::ₘ K) s) :
    ∃ file, s.files f = some file ∧ file.fCount = s.refs f + (K.count f + 1) := by
  rw [← count_cons_self]
  exact h.allocated (by rw [count_cons_self]; omega)

theorem count_setFile_self : (s.setFile f file).count f = file.elim 0 File.fCount := by
  show (update s.files f file f).elim 0 File.fCount = _
  rw [update_self]

theorem count_setFile_of_ne (hne : g ≠ f) : (s.setFile f file).count g = s.count g := by
  show (update s.files f file g).elim 0 File.fCount = _
  rw [update_of_ne hne]
  rfl

theorem Good.setFile (h : Good K s)
    (hcount : file.elim 0 File.fCount = s.refs f + K'.count f) (hlive : ∀ x ∈ file, 0 < x.fCount)
    (hother : ∀ g ≠ f, K'.count g = K.count g) (hold : f < s.serial) : Good K' (s.setFile f file) where
  tables := h.tables
  counts g := by
    by_cases hg : g = f
    · subst hg
      rw [count_setFile_self, hcount]
      rfl
    · rw [count_setFile_of_ne hg, h.counts g, hother g hg]
      rfl
  live g x := by
    show update s.files f file g = some x → _
    exact update_cases (fun _ => hlive x) fun _ => h.live g x
  fresh g hg := by
    show update s.files f file g = none
    have hne : g ≠ f := by
      rintro rfl
      exact not_lt.2 hg hold
    rw [update_of_ne hne]
    exact h.fresh g hg

theorem Good.lt_serial {file : File} (h : Good K s) (hfile : s.files f = some file) : f < s.serial := by
  by_contra hge
  rw [h.fresh f (Nat.le_of_not_lt hge)] at hfile
  cases hfile

theorem fileAt_eq {file : File} (h : s.files f = some file) : fileAt f s = .ok file s := by
  rw [fileAt, h]

theorem wp_tableAt {Q : FilesStruct → Sys → Prop} (ht : t < s.tablesNr) :
    wp (tableAt t) Q E s ↔ Q (s.tables t) s := by
  unfold wp tableAt
  rw [if_pos ht]

def SameTables (s s' : Sys) : Prop := s'.tables = s.tables ∧ s'.tablesNr = s.tablesNr

theorem getFile_spec (h : Good K s) (hpos : 0 < s.refs f + K.count f) :
    wp (getFile f) (fun _ s' => Good (f ::ₘ K) s' ∧ SameTables s s') E s := by
  obtain ⟨file, hfile, hcount⟩ := h.allocated hpos
  refine wp_of_bind_ok (fileAt_eq hfile) (wp_modify.2 ⟨?_, rfl, rfl⟩)
  refine h.setFile ?_ ?_ (fun g hg => count_cons_of_ne hg K) (h.lt_serial hfile)
  · rw [count_cons_self]
    show file.fCount + 1 = _
    omega
  · rintro x ⟨⟩
    exact succ_pos _

theorem putFile_spec (h : Good (f ::ₘ K) s) (hpos : 0 < s.refs f + K.count f) :
    wp (putFile f) (fun _ s' => Good K s' ∧ SameTables s s') E s := by
  obtain ⟨file, hfile, hcount⟩ := h.held
  refine wp_of_bind_ok (fileAt_eq hfile) (wp_modify.2 ⟨?_, rfl, rfl⟩)
  refine h.setFile ?_ ?_ (fun g hg => (count_cons_of_ne hg K).symm) (h.lt_serial hfile)
  · show file.fCount - 1 = _
    omega
  · rintro x ⟨⟩
    show 0 < file.fCount - 1
    omega

def CountsBut (f : Nat) (s s' : Sys) : Prop := ∀ g ≠ f, s'.count g = s.count g

/-- A reference is given back, and with the last one the file is closed. -/
theorem putRelease_spec (h : Good (f ::ₘ K) s) :
    wp (putFile f) (fun _ s₁ => wp (fileReleaseLastRef f)
      (fun _ s' => Good K s' ∧ SameTables s s' ∧ CountsBut f s s') E s₁) E s := by
  obtain ⟨file, hfile, hcount⟩ := h.held
  have hold := h.lt_serial hfile
  have hother : ∀ g ≠ f, K.count g = (f ::ₘ K).count g := fun g hg =>
    (count_cons_of_ne hg K).symm
  refine wp_of_bind_ok (fileAt_eq hfile) (wp_modify.2 ?_)
  have hself : (s.setFile f (some { file with fCount := file.fCount - 1 })).files f =
      some { file with fCount := file.fCount - 1 } := update_self ..
  refine wp_of_bind_ok (fileAt_eq hself) ?_
  by_cases hlast : file.fCount - 1 = 0
  · rw [if_pos hlast]
    have htwice : (s.setFile f (some { file with fCount := file.fCount - 1 })).setFile f none =
        s.setFile f none := by
      unfold Sys.setFile
      rw [update_idem]
    refine wp_modify.2 ?_
    rw [htwice]
    refine ⟨h.setFile ?_ nofun hother hold, ⟨rfl, rfl⟩, fun g hg => count_setFile_of_ne hg⟩
    show 0 = _
    omega
  · rw [if_neg hlast]
    refine ⟨h.setFile ?_ ?_ hother hold, ⟨rfl, rfl⟩, fun g hg => count_setFile_of_ne hg⟩
    · show file.fCount - 1 = _
      omega
    · rintro x ⟨⟩
      exact pos_of_ne_zero hlast

theorem newFile_spec {fOp : FileOperations} {flags : BitVec 32} (h : Good K s) :
    wp (newFile fOp flags) (fun f s' => f = s.serial ∧ Good (f ::ₘ K) s' ∧ SameTables s s' ∧
      s'.serial = s.serial + 1 ∧ s'.count f = 1 ∧ CountsBut f s s') E s := by
  have hnone := h.fresh s.serial (le_refl _)
  have hcount := h.counts s.serial
  rw [Sys.count, hnone] at hcount
  change 0 = _ at hcount
  have hlater : Good K { s with serial := s.serial + 1 } :=
    ⟨h.tables, h.counts, h.live, fun g hg => h.fresh g (le_of_succ_le hg)⟩
  refine ⟨rfl, ?_, ⟨rfl, rfl⟩, rfl, count_setFile_self, fun g hg => count_setFile_of_ne hg⟩
  · refine hlater.setFile ?_ ?_ (fun g hg => count_cons_of_ne hg K) (lt_succ_self _)
    · rw [count_cons_self]
      show 1 = s.refs s.serial + _
      omega
    · rintro x ⟨⟩
      exact one_pos

theorem filpClose_spec (h : Good (f ::ₘ K) s) (hone : s.count f = 1) :
    wp (filpClose f) (fun _ s' => Good K s' ∧ SameTables s s' ∧ CountsBut f s s') E s := by
  have hcount := h.counts f
  rw [hone, count_cons_self] at hcount
  obtain ⟨file, hfile, -⟩ := h.held
  refine ⟨h.setFile ?_ nofun (fun g hg => (count_cons_of_ne hg K).symm) (h.lt_serial hfile),
    ⟨rfl, rfl⟩, fun g hg => count_setFile_of_ne hg⟩
  show 0 = _
  omega

/-! ## Descriptors -/

/-- One table changes at one descriptor, and the reference goes to the call or comes from it. -/
theorem Good.setTable (h : Good K s) (ht : t < s.tablesNr)
    (hlt : fd < maxOpenFilesNum) (hfiles : files.Consistent)
    (hfd : files.fd = update (s.tables t).fd fd slot)
    (hmoved : ∀ f, K'.count f + (if slot = some f then 1 else 0) =
      K.count f + if (s.tables t).fd fd = some f then 1 else 0) : Good K' (s.setTable t files) where
  tables u hu := by
    show (update s.tables t files u).Consistent
    exact update_cases (fun _ => hfiles) fun _ => h.tables u hu
  counts f := by
    have hold := h.counts f
    have hsum : (s.setTable t files).refs f + (s.tables t).refs f = s.refs f + files.refs f :=
      setTable_refs ht
    have hslot := refs_change (f := f) hlt hfd
    have hmove := hmoved f
    show s.count f = _
    omega
  live := h.live
  fresh := h.fresh

theorem Good.sameSlots (h : Good K s) (ht : t < s.tablesNr) (hfiles : files.Consistent)
    (hfd : files.fd = (s.tables t).fd) : Good K (s.setTable t files) := by
  have hself : files.fd = update (s.tables t).fd 0 ((s.tables t).fd 0) := by
    rw [update_eq_self]
    exact hfd
  exact h.setTable ht (by decide) hfiles hself fun _ => rfl

theorem count_cons_slot : (f ::ₘ K).count g + (if none = some g then 1 else 0) =
    K.count g + if some f = some g then 1 else 0 := by
  simp only [count_cons, reduceCtorEq, if_false, Option.some.injEq, eq_comm, add_zero]

theorem Good.install (h : Good (f ::ₘ K) s) (cloexec : Bool) (ht : t < s.tablesNr)
    (hlt : fd < maxOpenFilesNum) (hclosed : (s.tables t).fd fd = none) :
    Good K (s.setTable t ((s.tables t).install fd f cloexec)) := by
  refine h.setTable ht hlt ((h.tables t ht).install hlt) rfl fun g => ?_
  rw [hclosed, count_cons_slot]

theorem Good.attach (h : Good (f ::ₘ K) s) (ht : t < s.tablesNr) (hlt : fd < maxOpenFilesNum)
    (hclosed : (s.tables t).fd fd = none) : Good K (s.setTable t ((s.tables t).attach fd f)) := by
  refine h.setTable ht hlt ((h.tables t ht).attach hlt) rfl fun g => ?_
  rw [hclosed, count_cons_slot]

theorem Good.drop (h : Good K s) (ht : t < s.tablesNr) (hlt : fd < maxOpenFilesNum)
    (hslot : (s.tables t).fd fd = some f) : Good (f ::ₘ K) (s.setTable t ((s.tables t).drop fd)) := by
  refine h.setTable ht hlt ((h.tables t ht).drop hlt) rfl fun g => ?_
  rw [hslot, count_cons_slot]

def Changed (t : Nat) (files : FilesStruct) (s s' : Sys) : Prop :=
  s'.tables = update s.tables t files ∧ s'.tablesNr = s.tablesNr

theorem Changed.self (h : Changed t files s s') : s'.tables t = files := by
  rw [h.1, update_self]

theorem Changed.lt (h : Changed t files s s') (ht : t < s.tablesNr) : t < s'.tablesNr := by
  rw [h.2]
  exact ht

theorem SameTables.lt (h : SameTables s s') (ht : t < s.tablesNr) : t < s'.tablesNr := by
  rw [h.2]
  exact ht

theorem SameTables.trans (h : SameTables s s') (h' : SameTables s' s'') : SameTables s s'' :=
  ⟨h'.1.trans h.1, h'.2.trans h.2⟩

theorem Changed.of_same (h : SameTables s s') (h' : Changed t files s' s'') :
    Changed t files s s'' :=
  ⟨by rw [h'.1, h.1], h'.2.trans h.2⟩

theorem Changed.then_same (h : Changed t files s s') (h' : SameTables s' s'') :
    Changed t files s s'' :=
  ⟨h'.1.trans h.1, h'.2.trans h.2⟩

theorem Changed.trans (h : Changed t files s s')
    (h' : Changed t files' s' s'') : Changed t files' s s'' :=
  ⟨by rw [h'.1, h.1, update_idem], h'.2.trans h.2⟩

theorem closeFd_cases {Q : Int → Sys → Prop} {n : BitVec 32} (h : Good K s) (ht : t < s.tablesNr)
    (hnone : (s.tables t).fd n.toNat = none → Q (-ebadf) s)
    (hsome : ∀ f s', (s.tables t).fd n.toNat = some f → Good K s' →
      Changed t ((s.tables t).drop n.toNat) s s' → CountsBut f s s' → Q 0 s') :
    wp (closeFd t n) Q E s := by
  refine wp_bind.2 ((wp_tableAt ht).2 ?_)
  split <;> rename_i hge
  · exact hnone ((h.tables t ht).bound _ hge)
  · cases hslot : (s.tables t).fd n.toNat with
    | none => exact hnone hslot
    | some f =>
      have hdropped := h.drop ht (Nat.lt_of_not_le hge) hslot
      refine wp_bind.2 (wp_modify.2 (wp_bind.2 (wp_post (fun _ _ hs => wp_bind.2 ?_)
        (putRelease_spec hdropped))))
      refine wp_post (fun _ s' hs' => ?_) hs
      obtain ⟨hgood, hsame, hcounts⟩ := hs'
      have hchanged : Changed t ((s.tables t).drop n.toNat) s (s.setTable t ((s.tables t).drop n.toNat)) :=
        ⟨rfl, rfl⟩
      exact hsome f s' hslot hgood (hchanged.then_same hsame) hcounts

/-! ## New tables -/

theorem count_filterMap_range (g : Nat → Option Nat) (n : Nat) :
    ((List.range n).filterMap g).count f = ∑ i ∈ Finset.range n, if g i = some f then 1 else 0 := by
  induction n with
  | zero => rfl
  | succ n ih =>
    rw [List.range_succ, List.filterMap_append, List.count_append, sum_range_succ, ih]
    cases hg : g n with
    | none => simp [hg]
    | some x => simp [hg, List.count_singleton]

theorem getFiles_spec {fds : List Nat} (h : Good K s)
    (hpos : ∀ fd ∈ fds, ∀ f, files.fd fd = some f → 0 < s.refs f) :
    wp (getFiles files fds) (fun _ s' => Good (↑(fds.filterMap files.fd) + K) s' ∧ SameTables s s') E s := by
  induction fds generalizing s K with
  | nil =>
    refine ⟨?_, rfl, rfl⟩
    rw [List.filterMap_nil, coe_nil, zero_add]
    exact h
  | cons fd fds ih =>
    have hrest : ∀ fd' ∈ fds, ∀ f, files.fd fd' = some f → 0 < s.refs f := fun fd' hmem =>
      hpos fd' (List.mem_cons_of_mem _ hmem)
    unfold getFiles
    cases hfd : files.fd fd with
    | none =>
      rw [List.filterMap_cons_none hfd]
      exact ih h hrest
    | some f =>
      have hnow := hpos fd List.mem_cons_self f hfd
      refine wp_seq (getFile_spec h (Nat.add_pos_left hnow _)) fun _ s₁ hs₁ => ?_
      obtain ⟨hgood, hsame⟩ := hs₁
      have hrefs : ∀ g, s₁.refs g = s.refs g := by
        intro g
        unfold Sys.refs
        rw [hsame.1, hsame.2]
      refine wp_post (fun _ s' hs' => ⟨?_, hsame.trans hs'.2⟩)
        (ih hgood fun fd' hmem g hg => by rw [hrefs]; exact hrest fd' hmem g hg)
      rw [List.filterMap_cons_some hfd, ← cons_coe, cons_add, ← add_cons]
      exact hs'.1

/-- There is one table more. -/
def Sys.addTable (s : Sys) (files : FilesStruct) : Sys :=
  { s.setTable s.tablesNr files with tablesNr := s.tablesNr + 1 }

theorem addTable_refs : (s.addTable files).refs f = s.refs f + files.refs f :=
  sum_range_succ_update s.tablesNr (fun files => FilesStruct.refs files f) s.tables files

theorem Good.addTable (h : Good (↑((List.range maxOpenFilesNum).filterMap files.fd) + K) s)
    (hfiles : files.Consistent) : Good K (s.addTable files) where
  tables t ht := by
    show (update s.tables s.tablesNr files t).Consistent
    exact update_cases (fun _ => hfiles) fun hlast =>
      h.tables t (lt_of_le_of_ne (le_of_lt_succ ht) hlast)
  counts f := by
    have hold := h.counts f
    rw [Multiset.count_add, coe_count, count_filterMap_range] at hold
    change s.count f = s.refs f + (files.refs f + K.count f) at hold
    have hcount : (s.addTable files).count f = s.count f := rfl
    rw [hcount, addTable_refs, hold, add_assoc]
  live := h.live
  fresh := h.fresh

theorem dupFd_spec (h : Good K s) (ht : t < s.tablesNr) :
    wp (dupFd t mem) (fun r s' => Good K s' ∧ (mem = false → r = none ∧ s' = s) ∧
      (mem = true → r = some s.tablesNr ∧ s'.tablesNr = s.tablesNr + 1 ∧
        s'.tables = update s.tables s.tablesNr (s.tables t).copy)) E s := by
  refine wp_bind.2 ((wp_tableAt ht).2 ?_)
  cases mem with
  | false => exact ⟨h, fun _ => ⟨rfl, rfl⟩, nofun⟩
  | true =>
    have hfd := (h.tables t ht).copy_fd
    have hpos : ∀ fd ∈ List.range maxOpenFilesNum, ∀ f, (s.tables t).copy.fd fd = some f → 0 < s.refs f := by
      intro fd hmem f hslot
      rw [hfd] at hslot
      exact refs_pos ht (List.mem_range.1 hmem) hslot
    refine wp_seq (getFiles_spec h hpos) fun _ s₁ ⟨hgood, hsame⟩ => ?_
    refine ⟨hgood.addTable (h.tables t ht).copy, nofun, fun _ => ⟨?_, ?_, ?_⟩⟩
    · rw [hsame.2]
    · exact congrArg (· + 1) hsame.2
    · show update s₁.tables s₁.tablesNr _ = _
      rw [hsame.1, hsame.2]

end ZzzOs.Fs.Fd
