import ZzzOs.Fs.Fd.Drops
import ZzzOs.Fs.Fd.Table

/-!
# Runs of several tasks

Each step of a task keeps the invariant of `Drops`, but for three of them, which keep it under a
condition (`Fine`). In a run of such steps, every description is released once, when its last reference
is gone, and every table is closed and freed once, when its last user is gone.
-/

namespace ZzzOs.Fs.Fd.Smp

open Finset Function Lib Nat

variable {s s' : Sys} {i j t u f fd start n : Nat} {files files' : FilesStruct} {k : Next}
  {cloexec ok : Bool} {a : Act} {run : List (Nat × Act)}

/-! ## New tables and tasks -/

theorem slots_copyTable : (s.copyTable t).slots f = s.slots f + (s.tables t).copy.refs f :=
  sum_range_succ_update s.tablesNr (fun files => FilesStruct.refs files f) s.tables (s.tables t).copy

theorem slots_pos_of_copy (ht : t < s.tablesNr) (hne : (s.tables t).copy.refs f ≠ 0) : 0 < s.slots f := by
  obtain ⟨fd, hfd, hslot⟩ := exists_ne_zero_of_sum_ne_zero hne
  have hcopy : (s.tables t).copy.fd fd = some f := by
    by_contra hother
    exact hslot (if_neg hother)
  have hlt : fd < maxOpenFilesNum := mem_range.1 hfd
  refine le_slots ht hlt ?_
  unfold FilesStruct.copy at hcopy
  dsimp only at hcopy
  split_ifs at hcopy
  exact hcopy

theorem Places.copyTable (h : Places s) (hclosers : ∀ j < s.tasksNr, (s.tasks j).pc.closes s.tablesNr = 0) :
    Places (s.copyTable t) := by
  have hfreed : Places { s with freed := update s.freed s.tablesNr 0 } := by
    refine ⟨h.slots, h.tasks, fun u => ?_⟩
    show 0 < update s.freed s.tablesNr 0 u → _
    exact update_cases (fun _ hpos => absurd hpos (lt_irrefl 0)) fun _ => h.freed u
  have hplaces : Places (Sys.setTable { s with freed := update s.freed s.tablesNr 0 } s.tablesNr
      (s.tables t).copy) := by
    refine hfreed.setTable (fun fd hne => ?_) (fun n hclosed => ?_)
    · unfold FilesStruct.copy at hne ⊢
      dsimp only at hne ⊢
      split at hne
      · assumption
      · exact absurd rfl hne
    · exfalso
      rcases hclosed with ⟨j, hj, hpos⟩ | hpos
      · exact absurd (hclosers j hj) (ne_of_gt hpos)
      · change 0 < update s.freed s.tablesNr 0 s.tablesNr at hpos
        rw [update_self] at hpos
        exact absurd hpos (lt_irrefl 0)
  exact ⟨hplaces.slots, hplaces.tasks, hplaces.freed⟩

section

variable (h : Good s) (hi : i < s.tasksNr)

include h hi

section

variable (hpc : (s.tasks i).pc = .idle) (hfiles : (s.tasks i).files = some t)

include hpc hfiles

theorem Good.fork : Good ((s.copyTable t).setPc i (.forking s.tablesNr)) := by
  have ht := h.table_lt (Nat.add_pos_left (Good.users_pos hi hfiles) _)
  refine ⟨fun g => ?_, fun u => ?_, ?_⟩
  · have htotals := file_totals (s.copyTable t) (.forking s.tablesNr) hi hpc rfl rfl g
    have hgood := fileGood_iff.1 (h.files g)
    have hfile : (s.copyTable t).files g =
      { s.files g with count := (s.files g).count + (s.tables t).copy.refs g } := rfl
    have hnr : (s.copyTable t).filesNr = s.filesNr := rfl
    have hpos : (s.tables t).copy.refs g ≠ 0 → 0 < s.refs g := fun hne =>
      Nat.add_pos_left (slots_pos_of_copy ht hne) _
    rw [slots_copyTable] at htotals
    simp only [Pc.refs, Pc.tests, Pc.releases] at htotals
    rw [fileGood_iff, setPc_files, setPc_filesNr, hfile, hnr]
    dsimp only
    omega
  · have htotals := table_totals (s.copyTable t) (.forking s.tablesNr) hi hpc rfl rfl u
    have hgood := tableGood_iff.1 (h.tables u)
    have hnr : (s.copyTable t).tablesNr = s.tablesNr + 1 := rfl
    simp only [Pc.uses, Pc.closes] at htotals
    rw [tableGood_iff, setPc_tables, setPc_tablesNr, setPc_freed, hnr]
    by_cases hu : s.tablesNr = u
    · -- the new table, with the count of 1
      subst hu
      have hcopy : (s.copyTable t).tables s.tablesNr = (s.tables t).copy := update_self ..
      have hcount : (s.tables t).copy.refcount = 1 := rfl
      have hfreed : (s.copyTable t).freed s.tablesNr = 0 := update_self ..
      rw [one_self] at htotals
      rw [hcopy, hcount]
      omega
    · have hcopy : (s.copyTable t).tables u = s.tables u := update_of_ne (Ne.symm hu) ..
      have hfreed : (s.copyTable t).freed u = s.freed u := update_of_ne (Ne.symm hu) ..
      rw [one_of_ne hu] at htotals
      rw [hcopy, hfreed]
      omega
  · refine Places.setPc (h.places.copyTable fun j hj => ?_) trivial
    have hle : (s.tasks j).pc.closes s.tablesNr ≤ s.closers s.tablesNr := le_sum hj fun x => x.pc.closes s.tablesNr
    have hnone := ((h.tables s.tablesNr).strange (le_refl _)).2
    omega

theorem Good.share :
    Good ((s.setTable t { s.tables t with refcount := (s.tables t).refcount + 1 }).setPc i (.forking t)) := by
  have husers := Good.users_pos hi hfiles
  have ht := h.table_lt (Nat.add_pos_left husers _)
  obtain ⟨files, hnew⟩ : ∃ files, files = { s.tables t with refcount := (s.tables t).refcount + 1 } := ⟨_, rfl⟩
  have hcount : files.refcount = (s.tables t).refcount + 1 := hnew ▸ rfl
  rw [← hnew]
  refine ⟨h.files_setPc hi hpc rfl rfl rfl rfl (fun f => ?_) (fun _ => rfl) (fun _ => rfl), fun u => ?_, ?_⟩
  · exact congrArg (· + 0) (slots_setTable_same ht (hnew ▸ rfl) f)
  · have htotals := table_totals (s.setTable t files) (.forking t) hi hpc rfl rfl u
    have hgood := tableGood_iff.1 (h.tables u)
    simp only [Pc.uses, Pc.closes] at htotals
    rw [tableGood_iff, setPc_tables, setPc_tablesNr, setPc_freed, setTable_tablesNr, setTable_freed]
    by_cases hu : t = u
    · subst hu
      rw [one_self] at htotals
      rw [setTable_self]
      omega
    · rw [one_of_ne hu] at htotals
      rw [setTable_other (Ne.symm hu)]
      omega
  · exact Places.setPc (hnew ▸ h.places.setRefcount _) trivial

end

theorem Good.born (hpc : (s.tasks i).pc = .forking t) : Good { s.setPc i .idle with
      tasks := update (s.setPc i .idle).tasks s.tasksNr { files := some t, held := [], pc := .idle }
      tasksNr := s.tasksNr + 1 } := by
  obtain ⟨s', hs'⟩ : ∃ s' : Sys, s' = { s.setPc i .idle with
      tasks := update (s.setPc i .idle).tasks s.tasksNr { files := some t, held := [], pc := .idle }
      tasksNr := s.tasksNr + 1 } := ⟨_, rfl⟩
  have hsum : ∀ q : Task → Nat, s'.sum q = (s.setPc i .idle).sum q +
      q { files := some t, held := [], pc := .idle } := by
    intro q
    rw [hs']
    exact sum_range_succ_update s.tasksNr q (s.setPc i .idle).tasks _
  rw [← hs']
  refine ⟨fun g => ?_, fun u => ?_, ?_⟩
  · have htotals := file_totals s .idle hi hpc rfl rfl g
    have hslots : s'.slots g = (s.setPc i .idle).slots g := hs' ▸ rfl
    have hchild : s'.refs g = (s.setPc i .idle).refs g + 0 := by
      unfold Sys.refs
      rw [hslots, hsum]
      rfl
    have htests : s'.tests g = (s.setPc i .idle).tests g + 0 := hsum fun x => x.pc.tests g
    have hreleases : s'.releases g = (s.setPc i .idle).releases g + 0 := hsum fun x => x.pc.releases g
    have hsame : s'.files = s.files ∧ s'.filesNr = s.filesNr := hs' ▸ ⟨rfl, rfl⟩
    have hgood := fileGood_iff.1 (h.files g)
    simp only [Pc.refs, Pc.tests, Pc.releases] at htotals
    rw [fileGood_iff, hsame.1, hsame.2]
    omega
  · have htotals := table_totals s .idle hi hpc rfl rfl u
    have hchild : s'.users u = (s.setPc i .idle).users u + one t u :=
      (hsum (Task.uses u)).trans (congrArg _ ind_some)
    have hcloses : s'.closers u = (s.setPc i .idle).closers u + 0 := hsum fun x => x.pc.closes u
    have hsame : s'.tables = s.tables ∧ s'.tablesNr = s.tablesNr ∧ s'.freed = s.freed :=
      hs' ▸ ⟨rfl, rfl, rfl⟩
    have hgood := tableGood_iff.1 (h.tables u)
    simp only [Pc.uses, Pc.closes] at htotals
    rw [tableGood_iff, hsame.1, hsame.2.1, hsame.2.2]
    omega
  · rw [hs']
    have hplaces : Places (s.setPc i .idle) := h.places.setPc trivial
    refine ⟨hplaces.slots, fun j hj => ?_, hplaces.freed⟩
    show (update (s.setPc i .idle).tasks s.tasksNr _ j).pc.Placed s.tables
    exact update_cases (fun _ => trivial) fun hnew =>
      hplaces.tasks j (lt_of_le_of_ne (le_of_lt_succ hj) hnew)

/-- The table of a zombie goes over to the task that reaps it. -/
theorem Good.reap (hj : j < s.tasksNr) (hpc : (s.tasks i).pc = .idle)
    (hzombie : (s.tasks j).pc = .zombie) (hfiles : (s.tasks j).files = some t) :
    Good ((s.setTask j { s.tasks j with files := none }).setPc i (.dropping t)) := by
  have hij : i ≠ j := by
    rintro rfl
    rw [hpc] at hzombie
    cases hzombie
  obtain ⟨x, hx⟩ : ∃ x : Task, x = { s.tasks j with files := none } := ⟨_, rfl⟩
  rw [← hx]
  have hpc' : ((s.setTask j x).tasks i).pc = .idle := by
    show (update s.tasks j x i).pc = _
    rw [update_of_ne hij, hpc]
  have hj' : ∀ q : Task → Nat, (s.setTask j x).sum q + q (s.tasks j) = s.sum q + q x := fun q => sum_setTask hj q
  refine ⟨fun g => ?_, fun u => ?_, (h.places.setTask ?_).setPc trivial⟩
  · have htotals := file_totals (s.setTask j x) (.dropping t) (s := s.setTask j x) hi hpc' rfl rfl g
    have hgood := fileGood_iff.1 (h.files g)
    have hrefs : (s.setTask j x).refs g = s.refs g :=
      congrArg (s.slots g + ·) (add_right_cancel ((hj' (Task.refs g)).trans (by rw [hx]; rfl)))
    have htests : (s.setTask j x).tests g = s.tests g :=
      add_right_cancel ((hj' fun x => x.pc.tests g).trans (by rw [hx]; rfl))
    have hreleases : (s.setTask j x).releases g = s.releases g :=
      add_right_cancel ((hj' fun x => x.pc.releases g).trans (by rw [hx]; rfl))
    simp only [Pc.refs, Pc.tests, Pc.releases] at htotals
    rw [fileGood_iff]
    change (s.files g).count = _ ∧ (s.filesNr ≤ g → _) ∧ (g < s.filesNr → (_ → (s.files g).released = 0 ∧ _) ∧
      (_ → (s.files g).released + _ + _ = 1))
    omega
  · have htotals := table_totals (s.setTask j x) (.dropping t) (s := s.setTask j x) hi hpc' rfl rfl u
    have hgood := tableGood_iff.1 (h.tables u)
    have hleft := hj' (Task.uses u)
    have hcloses : (s.setTask j x).closers u = s.closers u :=
      add_right_cancel ((hj' fun x => x.pc.closes u).trans (by rw [hx]; rfl))
    have hold : Task.uses u (s.tasks j) = one t u + 0 := by
      unfold Task.uses
      rw [hzombie, hfiles]
      exact congrArg (· + 0) ind_some
    have hnew : Task.uses u x = 0 + 0 := by
      unfold Task.uses
      rw [hx, hzombie]
      rfl
    have husers : (s.setTask j x).users u + one t u = s.users u := by
      rw [hold, hnew] at hleft
      exact hleft
    simp only [Pc.uses, Pc.closes] at htotals
    rw [tableGood_iff]
    change (s.tablesNr ≤ u → _) ∧ (_ → _ ∧ s.freed u = 0) ∧ (u < s.tablesNr → _ →
      (s.freed u = 0 → (s.tables u).refcount = _) ∧ (_ → s.freed u = 0 ∧ _) ∧ (_ → s.freed u + _ = 1))
    omega
  · rw [hx]
    exact h.places.tasks j hj

theorem Good.leave_init (hpc : (s.tasks i).pc = .dropping initFiles) : Good (s.setPc i .idle) := by
  refine ⟨h.files_setPc hi hpc rfl rfl rfl rfl (fun _ => rfl) (fun _ => rfl) (fun _ => rfl), fun u => ?_,
    h.places.setPc trivial⟩
  have htotals := table_totals s .idle hi hpc rfl rfl u
  have hgood := tableGood_iff.1 (h.tables u)
  simp only [Pc.uses, Pc.closes] at htotals
  rw [tableGood_iff, setPc_tables, setPc_tablesNr, setPc_freed]
  by_cases hu : initFiles = u
  · omega
  · rw [one_of_ne hu] at htotals
    omega

end

/-! ## Descriptors -/

theorem Places.closed (h : Places s) (hopen : (s.tables t).openFds fd = false) : (s.tables t).fd fd = none := by
  by_contra hne
  rw [h.slots t fd hne] at hopen
  cases hopen

theorem Places.drop (h : Places s) : Places (s.setTable t ((s.tables t).drop fd)) := by
  refine h.setTable (fun fd' hne => ?_) fun n _ hold => emptied_update hold fd
  change update (s.tables t).fd fd none fd' ≠ none at hne
  show update (s.tables t).openFds fd false fd' = true
  by_cases heq : fd' = fd
  · rw [heq, update_self] at hne
    exact absurd rfl hne
  · rw [update_of_ne heq] at hne ⊢
    exact h.slots t fd' hne

/-- A descriptor is taken out of the table, and its file is going to be put. -/
theorem Good.drop {old : Pc} (h : Good s) (hi : i < s.tasksNr) (hpc : (s.tasks i).pc = old)
    (hfiles : (s.tasks i).files = some t) (hlt : fd < maxOpenFilesNum) (hslot : (s.tables t).fd fd = some f)
    (hrefs : ∀ g, k.refs g = old.refs g) (hlike : (Pc.putting f true k).Like old)
    (hplaced : k.Placed s.tables) (hclosed : ∀ u n, k ≠ .closing u n) :
    Good ((s.setTable t ((s.tables t).drop fd)).setPc i (.putting f true k)) := by
  have ht := h.table_lt (Nat.add_pos_left (Good.users_pos hi hfiles) _)
  refine h.slot hi hpc ht hlt rfl rfl (fun g => ?_) hlike h.places.drop ?_
  · rw [hslot, ind_none, ind_some, ← hrefs]
    show one f g + k.refs g + 0 = _
    omega
  · cases k with
    | done => trivial
    | attach fd f => exact hplaced
    | closing u n => exact absurd rfl (hclosed u n)

theorem alloc_some (h : files.alloc start cloexec = some (fd, files')) :
    fd < maxOpenFilesNum ∧ files.openFds fd = false ∧ files'.fd = update files.fd fd none ∧
      files'.openFds = update files.openFds fd true ∧ files'.refcount = files.refcount := by
  rcases files.allocated start cloexec with ⟨hnone, -⟩ | ⟨hsome, -, -, -, hlt, hclosed, -⟩
  · rw [h] at hnone
    cases hnone
  · rw [h] at hsome
    cases hsome
    refine ⟨hlt, hclosed, ?_⟩
    unfold FilesStruct.alloc at h
    dsimp only at h
    generalize firstClosed files.openFds _ _ = first at h
    split_ifs at h
    cases h
    exact ⟨rfl, rfl, rfl⟩

theorem Good.alloc (h : Good s) (hi : i < s.tasksNr)
    (hpc : (s.tasks i).pc = .allocating f start cloexec) (hfiles : (s.tasks i).files = some t)
    (halloc : (s.tables t).alloc start cloexec = some (fd, files)) :
    Good ((s.setTable t files).setPc i (.attaching fd f)) := by
  obtain ⟨hlt, hopen, hfd, hopenFds, hrefcount⟩ := alloc_some halloc
  have ht := h.table_lt (Nat.add_pos_left (Good.users_pos hi hfiles) _)
  refine h.slot hi hpc ht hlt hfd hrefcount (fun g => ?_) (fun _ => rfl) ?_ hlt
  · rw [h.places.closed hopen]
    rfl
  · refine h.places.setTable (fun fd' hne => ?_) fun n _ hold => ?_
    · rw [hfd] at hne
      rw [hopenFds]
      refine update_cases (fun _ => rfl) fun heq => h.places.slots t fd' ?_
      rwa [update_of_ne heq] at hne
    · intro fd' hfd'
      rw [hfd]
      exact emptied_update hold fd fd' hfd'

/-- A file is attached to a descriptor; the file that was there would be lost. -/
theorem Good.attach_iff (h : Good s) (hi : i < s.tasksNr) (hpc : (s.tasks i).pc = .attaching fd f)
    (hfiles : (s.tasks i).files = some t) :
    Good ((s.setTable t ((s.tables t).attach fd f)).setPc i .idle) ↔ (s.tables t).fd fd = none := by
  have husers := Good.users_pos hi hfiles
  have ht := h.table_lt (Nat.add_pos_left husers _)
  have hlt : fd < maxOpenFilesNum := by
    have hplaced := h.places.tasks i hi
    rw [hpc] at hplaced
    exact hplaced
  have hfd : ((s.tables t).attach fd f).fd = update (s.tables t).fd fd (some f) := rfl
  constructor
  · intro hgood
    by_contra hne
    obtain ⟨g, hg⟩ := Option.ne_none_iff_exists'.1 hne
    have hm : Moves i .idle s ((s.setTable t ((s.tables t).attach fd f)).setPc i .idle) := moves_setPc hi rfl rfl
    have hsum := hm.refs g
    rw [hpc] at hsum
    change _ + one f g = _ + 0 at hsum
    have hslots := slots_setTable ht hlt hfd g
    rw [hg, ind_some, ind_some, one_self] at hslots
    have hbefore : (s.files g).count = s.slots g + s.sum (Task.refs g) := (h.files g).count
    have hafter : (s.files g).count = (s.setTable t ((s.tables t).attach fd f)).slots g +
      ((s.setTable t ((s.tables t).attach fd f)).setPc i .idle).sum (Task.refs g) := (hgood.files g).count
    omega
  · intro hnone
    refine h.slot hi hpc ht hlt hfd rfl (fun g => ?_) (fun _ => rfl) ?_ trivial
    · rw [hnone, ind_none, ind_some]
      show 0 + one f g = one f g + 0
      omega
    · refine h.places.setTable (fun fd' hne => ?_) fun n hclosed _ => absurd (h.not_closed husers hclosed) id
      change update (s.tables t).fd fd (some f) fd' ≠ none at hne
      show update (s.tables t).openFds fd true fd' = true
      refine update_cases (fun _ => rfl) fun heq => h.places.slots t fd' ?_
      rwa [update_of_ne heq] at hne

theorem emptied_succ (h : Emptied files n) (hn : files.fd n = none) : Emptied files (n + 1) := by
  intro fd hfd
  rcases Nat.lt_succ_iff_lt_or_eq.1 hfd with hlt | heq
  · exact h fd hlt
  · rw [heq]
    exact hn

/-- `close_files` goes on to the next descriptor, and puts the file of this one. -/
theorem Good.close_next (h : Good s) (hi : i < s.tasksNr) (hpc : (s.tasks i).pc = .closing t fd)
    (hlt : fd < maxOpenFilesNum) :
    (Smp.slot (s.tables t) fd = none → Good (s.setPc i (.closing t (fd + 1)))) ∧
    ∀ f, Smp.slot (s.tables t) fd = some f →
      Good ((s.setTable t { s.tables t with fd := update (s.tables t).fd fd none }).setPc i
        (.putting f true (.closing t (fd + 1)))) := by
  have hplaced := h.places.tasks i hi
  rw [hpc] at hplaced
  have hempty : Emptied (s.tables t) fd := hplaced
  constructor
  · intro hnone
    refine h.move hi hpc (fun _ => rfl) (fun _ => rfl) ?_
    refine emptied_succ hempty ?_
    cases hopen : (s.tables t).openFds fd with
    | false => exact h.places.closed hopen
    | true =>
      rw [Smp.slot, if_pos ⟨hlt, hopen⟩] at hnone
      exact hnone
  · intro f hsome
    obtain ⟨-, hslot⟩ := slot_some hsome
    have ht : t < s.tablesNr := by
      exact h.table_lt (Nat.add_pos_right _ (closers_pos_of_pc hi (hpc ▸ one_self_pos)))
    refine h.slot hi hpc ht hlt rfl rfl (fun g => ?_) (fun _ => rfl) ?_ ?_
    · rw [hslot, ind_none, ind_some]
      show one f g + 0 + 0 = 0 + one f g
      omega
    · refine h.places.setTable (fun fd' hne => ?_) fun n _ hold => emptied_update hold fd
      revert hne
      show update (s.tables t).fd fd none fd' ≠ none → _
      exact update_cases (fun _ hne => absurd rfl hne) fun _ => h.places.slots t fd'
    · show Emptied (update s.tables t _ t) (fd + 1)
      rw [update_self]
      exact emptied_succ (emptied_update hempty fd) (update_self ..)

/-! ## Steps -/

/-- The decrement that leaves no reference to a file has to leave one task that is about to test it: the
task itself, if it does so and no other one, or else one other task. The count of a table must not be
decremented to 0. A file is attached to a descriptor that stands for none. -/
def Fine (s : Sys) (i : Nat) : Act → Prop
  | .go _ =>
    match (s.tasks i).pc with
    | .decrementing f last _ => (s.files f).count = 1 → s.tests f + (if last then 1 else 0) = 1
    | .leaving t => (s.tables t).refcount ≠ 1
    | .attaching fd _ => ∀ t, (s.tasks i).files = some t → (s.tables t).fd fd = none
    | _ => True
  | _ => True

section

variable (h : Good s) (hi : i < s.tasksNr)

include h hi

theorem proceed_good_iff (hstep : s.proceed i ok (s.tasks i).pc = some s') :
    Good s' ↔ Fine s i (.go ok) := by
  unfold Fine
  obtain ⟨pc, hpc⟩ : ∃ pc, (s.tasks i).pc = pc := ⟨_, rfl⟩
  have hplaced := h.places.tasks i hi
  rw [hpc] at hstep hplaced ⊢
  unfold Sys.proceed at hstep
  cases pc with
  | idle | zombie => cases hstep
  | allocating f start cloexec =>
    refine iff_of_true ?_ trivial
    dsimp only at hstep
    split at hstep
    · cases hstep
    · rename_i t hfiles
      split at hstep <;> cases hstep
      · exact h.move hi hpc (fun _ => rfl) (fun _ => rfl) trivial
      · rename_i halloc
        exact h.alloc hi hpc hfiles halloc
  | replacing fd f =>
    refine iff_of_true ?_ trivial
    dsimp only at hstep
    split at hstep
    · cases hstep
    · rename_i t hfiles
      split at hstep <;> cases hstep
      · exact h.move hi hpc (fun _ => rfl) (fun _ => rfl) hplaced
      · rename_i hclose
        obtain ⟨hlt, hslot, rfl⟩ := closeSection_some hclose
        exact h.drop hi hpc hfiles hlt hslot (fun _ => rfl) (fun _ => rfl) hplaced nofun
  | attaching fd f =>
    dsimp only at hstep
    split at hstep <;> cases hstep
    rename_i t hfiles
    rw [h.attach_iff hi hpc hfiles, hfiles]
    simp
  | putting f last k =>
    refine iff_of_true ?_ trivial
    have hpos : 0 < (s.files f).count := by
      rw [(h.files f).count]
      exact Good.refs_pos_of_pc hi (by rw [hpc]; simp [Pc.refs])
    dsimp only at hstep
    rw [if_pos hpos] at hstep
    cases hstep
    exact h.move hi hpc (fun _ => rfl) (fun _ => rfl) hplaced
  | decrementing f last k =>
    cases hstep
    exact h.decrement_iff hi hpc
  | testing f k =>
    cases hstep
    exact iff_of_true (h.test hi hpc) trivial
  | releasing f k =>
    cases hstep
    exact iff_of_true (h.release hi hpc) trivial
  | forking t =>
    refine iff_of_true ?_ trivial
    dsimp only at hstep
    split at hstep <;> cases hstep
    · exact h.born hi hpc
    · exact h.move hi hpc (fun _ => rfl) (fun _ => rfl) trivial
  | dropping t =>
    refine iff_of_true ?_ trivial
    dsimp only at hstep
    split at hstep
    · rename_i hinit
      subst hinit
      cases hstep
      exact h.leave_init hi hpc
    · rename_i hinit
      split_ifs at hstep with hcount
      · cases hstep
        exact h.move hi hpc (fun _ => rfl) (fun _ => rfl) hinit
      · cases hstep
        exact h.close_table hi hpc hinit (Nat.le_of_not_lt hcount)
  | leaving t =>
    cases hstep
    exact h.leave_iff hi hpc hplaced
  | closing t fd =>
    refine iff_of_true ?_ trivial
    dsimp only at hstep
    split at hstep
    · rename_i hlt
      obtain ⟨hnone, hsome⟩ := h.close_next hi hpc hlt
      split at hstep <;> cases hstep
      · exact hnone ‹_›
      · exact hsome _ ‹_›
    · rename_i hge
      cases hstep
      refine h.move hi hpc (fun _ => rfl) (fun _ => rfl) ?_
      exact fun fd' hfd' => hplaced fd' (Nat.lt_of_lt_of_le hfd' (Nat.le_of_not_lt hge))
  | freeing t =>
    cases hstep
    exact iff_of_true (h.free_table hi hpc) trivial

theorem Good.refs_pos_of_slot (hfiles : (s.tasks i).files = some t)
    (hslot : Smp.slot (s.tables t) fd = some f) : 0 < s.refs f := by
  have ht := h.table_lt (Nat.add_pos_left (Good.users_pos hi hfiles) _)
  obtain ⟨hlt, hfd⟩ := slot_some hslot
  exact Nat.add_pos_left (le_slots ht hlt hfd) _

theorem Good.get_pc {pc : Pc} (hpc : (s.tasks i).pc = .idle) (hfiles : (s.tasks i).files = some t)
    (hslot : Smp.slot (s.tables t) fd = some f) (hrefs : ∀ g, pc.refs g = one f g)
    (hlike : pc.Like .idle) (hplaced : pc.Placed s.tables) : Good ((s.getFile f).setPc i pc) := by
  refine h.get hi 1 (.inr (h.refs_pos_of_slot hi hfiles hslot)) (fun g => ?_)
    rfl (hpc ▸ hlike) hplaced
  unfold Task.refs
  rw [hpc, hrefs, one_mul]
  rfl

theorem Good.put_held (hpc : (s.tasks i).pc = .idle) (hheld : f ∈ (s.tasks i).held) :
    Good (s.setTask i { s.tasks i with held := (s.tasks i).held.erase f, pc := .putting f false .done }) := by
  have hgot := h.get (f := f) (x := { s.tasks i with
    held := (s.tasks i).held.erase f, pc := .putting f false .done }) hi 0 (.inl rfl) (fun g => ?_) rfl
    (hpc ▸ fun _ => rfl) trivial
  · unfold Sys.setDesc at hgot
    rwa [add_zero, update_eq_self] at hgot
  · have hcount : (s.tasks i).held.count g = (f :: (s.tasks i).held.erase f).count g :=
      (List.perm_cons_erase hheld).count_eq g
    rw [List.count_cons] at hcount
    unfold Task.refs
    rw [hpc]
    show ((s.tasks i).held.erase f).count g + (one f g + 0) = (s.tasks i).held.count g + 0 + 0 * _
    unfold one
    simp only [beq_iff_eq] at hcount
    omega

theorem begin_good (hpc : (s.tasks i).pc = .idle) (hfiles : (s.tasks i).files = some t)
    (hstep : s.begin i t a = some s') : Good s' := by
  unfold Sys.begin at hstep
  cases a with
  | getFile fd =>
    dsimp only at hstep
    split at hstep <;> cases hstep
    · exact h
    · rename_i f hslot
      have hplaced := h.places.tasks i hi
      refine h.get hi 1 (.inr (h.refs_pos_of_slot hi hfiles hslot)) (fun g => ?_) rfl (fun _ => rfl)
        hplaced
      unfold Task.refs one
      rw [List.count_cons, one_mul]
      simp only [beq_iff_eq]
      omega
  | putFile f =>
    dsimp only at hstep
    split_ifs at hstep with hheld
    cases hstep
    exact h.put_held hi hpc hheld
  | close fd =>
    dsimp only at hstep
    split at hstep <;> cases hstep
    · exact h
    · rename_i hclose
      obtain ⟨hlt, hslot, rfl⟩ := closeSection_some hclose
      exact h.drop hi hpc hfiles hlt hslot (fun _ => rfl) (fun _ => rfl) trivial nofun
  | dup fd start cloexec =>
    dsimp only at hstep
    split at hstep <;> cases hstep
    · exact h
    · rename_i f hslot
      exact h.get_pc hi hpc hfiles hslot (fun _ => rfl) (fun _ => rfl) trivial
  | dup2 fd newfd =>
    dsimp only at hstep
    split_ifs at hstep with hnew
    split at hstep <;> cases hstep
    · exact h
    · rename_i f hslot
      exact h.get_pc hi hpc hfiles hslot (fun _ => rfl) (fun _ => rfl) hnew.1
  | fork =>
    cases hstep
    exact h.fork hi hpc hfiles
  | cloneFiles =>
    cases hstep
    exact h.share hi hpc hfiles
  | exit =>
    split_ifs at hstep
    cases hstep
    exact h.move hi hpc (fun _ => rfl) (fun _ => rfl) trivial
  | reap j =>
    dsimp only at hstep
    split at hstep
    · rename_i hzombie hfiles'
      split_ifs at hstep with hj
      cases hstep
      exact h.reap hi hj hpc hzombie hfiles'
    · cases hstep
  | go ok => cases hstep

end

/-- A step keeps the invariant if and only if it meets the condition. -/
theorem step_good_iff (h : Good s) (hstep : s.step i a = some s') : Good s' ↔ Fine s i a := by
  unfold Sys.step at hstep
  split_ifs at hstep with hi
  cases a with
  | go ok => exact proceed_good_iff h hi hstep
  | _ =>
    refine iff_of_true ?_ trivial
    cases hpc : (s.tasks i).pc <;> cases hfiles : (s.tasks i).files <;> rw [hpc, hfiles] at hstep <;>
      first | exact begin_good h hi hpc hfiles hstep | cases hstep

/-! ## Runs -/

/-- Every description and every table is given back once, after its last reference or user is gone, or
one task is about to. -/
structure Exact (s : Sys) : Prop where
  files : ∀ f < s.filesNr, FileRight s f
  tables : ∀ t < s.tablesNr, t ≠ initFiles → TableRight s t
  closed : ∀ t, 0 < s.freed t → Emptied (s.tables t) maxOpenFilesNum

theorem Good.exact (h : Good s) : Exact s :=
  ⟨fun f => (h.files f).right, fun t => (h.tables t).right, h.places.freed⟩

/-- `P` holds in every state of a run. -/
def Stays (P : Sys → Prop) : List (Nat × Act) → Sys → Prop
  | [], s => P s
  | (i, a) :: rest, s => P s ∧ ∀ s', s.step i a = some s' → Stays P rest s'

/-- Every step of a run meets the condition. -/
def AllFine : List (Nat × Act) → Sys → Prop
  | [], _ => True
  | (i, a) :: rest, s => ∀ s', s.step i a = some s' → Fine s i a ∧ AllFine rest s'

theorem Stays.mono {P Q : Sys → Prop} (hPQ : ∀ s, P s → Q s) (h : Stays P run s) :
    Stays Q run s := by
  induction run generalizing s with
  | nil => exact hPQ s h
  | cons step rest ih => exact ⟨hPQ s h.1, fun s' hstep => ih (h.2 s' hstep)⟩

theorem allFine_iff (h : Good s) : AllFine run s ↔ Stays Good run s := by
  induction run generalizing s with
  | nil => exact iff_of_true trivial h
  | cons step rest ih =>
    constructor
    · intro hfine
      refine ⟨h, fun s' hstep => ?_⟩
      obtain ⟨hone, hrest⟩ := hfine s' hstep
      exact (ih ((step_good_iff h hstep).2 hone)).1 hrest
    · intro hgood s' hstep
      have hrest := hgood.2 s' hstep
      have hnext : Good s' := by
        cases rest with
        | nil => exact hrest
        | cons step rest => exact hrest.1
      exact ⟨(step_good_iff h hstep).1 hnext, (ih hnext).2 hrest⟩

/-- **The last reference.** In every run from a state in which all references are counted, and of which
all steps meet the condition, every description is released and every table is freed once, when its last
reference or user is gone. -/
theorem released_once (s : Sys) (h : Good s) (run : List (Nat × Act)) :
    (AllFine run s → Stays Exact run s) ∧ (AllFine run s ↔ Stays Good run s) :=
  ⟨fun hfine => ((allFine_iff h).1 hfine).mono fun _ => Good.exact, allFine_iff h⟩

/-- Two tasks with one table, in which two descriptors stand for one file, and two other tasks -/
def shared : Sys where
  tables t :=
    if t = 1 then
      { refcount := 2
        openFds fd := decide (fd < 2)
        closeOnExec _ := false
        fd fd := if fd < 2 then some 0 else none
        nextFd := 2 }
    else FilesStruct.init
  freed _ := 0
  tablesNr := 2
  files f := { count := if f = 0 then 2 else 0, released := 0 }
  filesNr := 1
  tasks i := { files := some (if i < 2 then 1 else 0), held := [], pc := .idle }
  tasksNr := 4

theorem shared_good : Good shared := by
  have hsum : ∀ q : Task → Nat, shared.sum q =
      q (shared.tasks 0) + q (shared.tasks 1) + q (shared.tasks 2) + q (shared.tasks 3) := by
    intro q
    show ∑ i ∈ Finset.range 4, _ = _
    simp only [sum_range_succ, sum_range_zero, zero_add]
  refine ⟨fun f => ?_, fun t => ?_, ⟨fun t fd => ?_, fun i _ => trivial, fun t hpos => ?_⟩⟩
  · have hreleases : shared.releases f = 0 := hsum _
    have hrefs : shared.refs f = if f = 0 then 2 else 0 := by
      have htasks : shared.sum (Task.refs f) = 0 := hsum _
      have hslots : shared.slots f = if f = 0 then 2 else 0 := by
        by_cases hf : f = 0
        · rw [hf]
          decide
        · rw [if_neg hf]
          refine sum_eq_zero fun t _ => sum_eq_zero fun fd _ => if_neg ?_
          intro hslot
          unfold shared at hslot
          dsimp only at hslot
          split at hslot
          · dsimp only at hslot
            split_ifs at hslot
            exact hf (Option.some.inj hslot).symm
          · cases hslot
      unfold Sys.refs
      rw [htasks, hslots, add_zero]
    refine ⟨hrefs.symm, fun hle => ?_, fun hlt => ⟨fun _ => ⟨rfl, hreleases⟩, fun hzero => ?_⟩⟩
    · rw [hrefs, if_neg (ne_of_gt hle)]
    · rw [hrefs, if_pos (lt_one_iff.1 hlt)] at hzero
      cases hzero
  · have hclosers : shared.closers t = 0 := hsum _
    have husers : shared.users t = one 1 t + one 1 t + one 0 t + one 0 t := by
      unfold Sys.users
      rw [hsum]
      simp only [Task.uses, shared, ← ind_some, ind, Pc.uses]
      rfl
    refine ⟨fun hle => ⟨?_, hclosers⟩, fun _ => ⟨hclosers, rfl⟩, fun hlt hne _ => ?_,
      fun hlt hne => ⟨fun _ => ⟨rfl, hclosers⟩, fun hzero => ?_⟩⟩
    · rw [husers, one_of_ne (Nat.ne_of_lt (Nat.lt_of_lt_of_le (by decide) hle)),
        one_of_ne (Nat.ne_of_lt (Nat.lt_of_lt_of_le (by decide) hle))]
    · obtain rfl : t = 1 := by
        change t < 2 at hlt
        change t ≠ 0 at hne
        omega
      rfl
    · obtain rfl : t = 1 := by
        change t < 2 at hlt
        change t ≠ 0 at hne
        omega
      cases hzero
  · unfold shared
    dsimp only
    split
    · dsimp only
      split_ifs with hlt
      · exact fun _ => decide_eq_true hlt
      · exact fun hne => absurd rfl hne
    · exact fun hne => absurd rfl hne
  · exact absurd hpos (lt_irrefl 0)

/-- Two tasks that close a descriptor each find a count of 0, and the file is released twice. A file
whose last reference is put by `fd_put_file` is never released. Nor is a table freed that two tasks
drop. -/
theorem shared_races :
    (shared.run [(0, .close 0), (1, .close 1), (0, .go true), (0, .go true), (1, .go true), (1, .go true),
      (0, .go true), (1, .go true), (0, .go true), (1, .go true)]).map
        (fun s => ((s.files 0).released, (s.tasks 0).pc matches .idle, (s.tasks 1).pc matches .idle)) =
      some (2, true, true) ∧
    (shared.run [(0, .getFile 0), (1, .close 0), (1, .go true), (1, .go true), (1, .go true), (1, .close 1),
      (1, .go true), (1, .go true), (1, .go true), (0, .putFile 0), (0, .go true), (0, .go true)]).map
        (fun s => ((s.files 0).count, (s.files 0).released, (s.tasks 0).pc matches .idle,
          (s.tasks 1).pc matches .idle)) = some (0, 0, true, true) ∧
    (shared.run [(0, .exit), (1, .exit), (2, .reap 0), (3, .reap 1), (2, .go true), (3, .go true), (2, .go true),
      (3, .go true)]).map (fun s => ((s.tables 1).refcount, s.freed 1, (s.tasks 2).pc matches .idle,
          (s.tasks 3).pc matches .idle)) = some (0, 0, true, true) :=
  ⟨rfl, rfl, rfl⟩

def bothClosed : List (Nat × Act) :=
  [(0, .close 0), (0, .go true), (0, .go true), (0, .go true),
    (0, .close 1), (0, .go true), (0, .go true), (0, .go true), (0, .go true)]

theorem AllFine.cons {rest : List (Nat × Act)} (hstep : s.step i a = some s') (hfine : Fine s i a) (h : AllFine rest s') :
    AllFine ((i, a) :: rest) s := by
  intro s₁ hs₁
  cases hstep.symm.trans hs₁
  exact ⟨hfine, h⟩

/-- One task closes both descriptors, and the file is released. -/
theorem shared_close : Good shared ∧ (shared.run bothClosed).map (fun s => (s.files 0).released) = some 1 ∧
    Stays Exact bothClosed shared := by
  refine ⟨shared_good, rfl, (released_once shared shared_good _).1 ?_⟩
  refine .cons rfl trivial (.cons rfl trivial (.cons rfl nofun (.cons rfl trivial ?_)))
  -- the second decrement leaves no reference, and only this task tests for that
  exact .cons rfl trivial (.cons rfl trivial (.cons rfl (fun _ => rfl)
    (.cons rfl trivial (.cons rfl trivial trivial))))

end ZzzOs.Fs.Fd.Smp
