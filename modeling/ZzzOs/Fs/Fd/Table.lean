import ZzzOs.Fs.Fd.Counts

/-!
# Allocation of descriptors

A table is a map from descriptors to descriptions, each with a flag for `exec` (`Descs`). `__alloc_fd`
does not look below `next_fd`; it takes the lowest closed descriptor for every start if and only if all
descriptors below `next_fd` are open (`Hint`).
-/

namespace ZzzOs.Fs.Fd

open Function Lib Nat

variable {files : FilesStruct} {fd f start fd' : Nat} {cloexec : Bool}
  {slot slot' : Option (Nat × Bool)}

/-! ## What a table is for -/

/-- What the descriptors stand for, with the flag that closes them on `exec` -/
abbrev Descs := Nat → Option (Nat × Bool)

/-- The lowest closed descriptor from `start` on -/
structure Descs.Lowest (d : Descs) (start fd : Nat) : Prop where
  start_le : start ≤ fd
  bound : fd < maxOpenFilesNum
  closed : d fd = none
  least : ∀ fd', start ≤ fd' → fd' < fd → d fd' ≠ none

/-- All descriptors from `start` on are open. -/
def Descs.Full (d : Descs) (start : Nat) : Prop := ∀ fd, start ≤ fd → fd < maxOpenFilesNum → d fd ≠ none

def Descs.set (d : Descs) (fd : Nat) (slot : Option (Nat × Bool)) : Descs := update d fd slot

/-- The descriptors that stay open on `exec` -/
def Descs.afterExec (d : Descs) : Descs := fun fd => (d fd).filter fun slot => !slot.2

variable {d : Descs}

theorem Descs.Lowest.not_full (h : d.Lowest start fd) : ¬ d.Full start :=
  fun hfull => hfull fd h.start_le h.bound h.closed

theorem Descs.set_self : d.set fd slot fd = slot :=
  update_self ..

theorem Descs.set_of_ne (h : fd' ≠ fd) : d.set fd slot fd' = d fd' :=
  update_of_ne h ..

theorem Descs.set_same (h : d fd = none) : d.set fd none = d := by
  rw [← h]
  exact update_eq_self ..

theorem Descs.set_set :
    (d.set fd slot).set fd slot' = d.set fd slot' :=
  update_idem ..

/-- The map that a table is for -/
def FilesStruct.descs (files : FilesStruct) : Descs := fun fd =>
  (files.fd fd).map fun f => (f, files.closeOnExec fd)

theorem descs_eq_none : files.descs fd = none ↔ files.fd fd = none := Option.map_eq_none_iff

theorem descs_of_slot (h : files.fd fd = some f) : files.descs fd = some (f, files.closeOnExec fd) := by
  unfold FilesStruct.descs
  rw [h]
  rfl

theorem FilesStruct.Consistent.descs_open (h : files.Consistent) :
    files.openFds fd = true ↔ files.descs fd ≠ none := by
  rw [Ne, descs_eq_none, ← h.closed, Bool.not_eq_false]

theorem FilesStruct.Consistent.descs_bound (h : files.Consistent) (hge : maxOpenFilesNum ≤ fd) :
    files.descs fd = none :=
  descs_eq_none.2 (h.bound fd hge)

theorem descs_change (files' : FilesStruct)
    (hother : ∀ fd' ≠ fd, files'.fd fd' = files.fd fd' ∧ files'.closeOnExec fd' = files.closeOnExec fd') :
    files'.descs = files.descs.set fd (files'.descs fd) := by
  funext fd'
  by_cases hne : fd' = fd
  · rw [hne, Descs.set_self]
  · rw [Descs.set_of_ne hne]
    unfold FilesStruct.descs
    rw [(hother fd' hne).1, (hother fd' hne).2]

theorem descs_install : (files.install fd f cloexec).descs = files.descs.set fd (some (f, cloexec)) := by
  have hself : (files.install fd f cloexec).descs fd = some (f, cloexec) := by
    unfold FilesStruct.descs FilesStruct.install
    dsimp only
    rw [update_self, update_self]
    rfl
  rw [← hself]
  exact descs_change _ fun fd' hne => ⟨update_of_ne hne .., update_of_ne hne ..⟩

theorem descs_drop : (files.drop fd).descs = files.descs.set fd none := by
  have hself : (files.drop fd).descs fd = none := descs_eq_none.2 (update_self ..)
  rw [← hself]
  exact descs_change _ fun fd' hne => ⟨update_of_ne hne .., update_of_ne hne ..⟩

theorem FilesStruct.Consistent.descs_attach (h : files.Consistent) (hclosed : files.descs fd = none) :
    (files.attach fd f).descs = files.descs.set fd (some (f, false)) := by
  have hcloexec : files.closeOnExec fd = false := by
    rw [Bool.eq_false_iff]
    exact fun hset => h.descs_open.1 (h.cloexec fd hset) hclosed
  have hself : (files.attach fd f).descs fd = some (f, false) := by
    rw [descs_of_slot (show (files.attach fd f).fd fd = some f from update_self ..)]
    exact congrArg (fun c => some (f, c)) hcloexec
  rw [← hself]
  exact descs_change _ fun fd' hne => ⟨update_of_ne hne .., rfl⟩

theorem descs_setCloexec (hslot : files.fd fd = some f) :
    ({ files with closeOnExec := update files.closeOnExec fd cloexec } : FilesStruct).descs =
      files.descs.set fd (some (f, cloexec)) := by
  have hself : ({ files with closeOnExec := update files.closeOnExec fd cloexec } :
      FilesStruct).descs fd = some (f, cloexec) := by
    unfold FilesStruct.descs
    dsimp only
    rw [hslot, update_self]
    rfl
  rw [← hself]
  exact descs_change _ fun fd' hne => ⟨rfl, update_of_ne hne ..⟩

theorem FilesStruct.Consistent.descs_copy (h : files.Consistent) : files.copy.descs = files.descs := by
  unfold FilesStruct.descs
  rw [h.copy_fd, h.copy_closeOnExec]

/-! ## The search -/

theorem firstClosed_spec (openFds : Nat → Bool) (n fd : Nat) : fd ≤ firstClosed openFds n fd ∧
      (∀ fd', fd ≤ fd' → fd' < firstClosed openFds n fd → openFds fd' = true) ∧
      (firstClosed openFds n fd < fd + n → openFds (firstClosed openFds n fd) = false) ∧
      firstClosed openFds n fd ≤ fd + n := by
  induction n generalizing fd with
  | zero => exact ⟨le_refl _, fun fd' h h' => absurd h' (not_lt.2 h),
      fun h => absurd h (lt_irrefl _), le_refl _⟩
  | succ n ih =>
    unfold firstClosed
    cases hopen : openFds fd with
    | false =>
      exact ⟨le_refl _, fun fd' h h' => absurd h' (not_lt.2 h), fun _ => hopen, le_add_right _ _⟩
    | true =>
      rw [if_pos rfl]
      obtain ⟨hle, hbelow, hfound, hbound⟩ := ih (fd + 1)
      refine ⟨le_of_succ_le hle, fun fd' h h' => ?_, fun h => hfound (by omega), by omega⟩
      rcases eq_or_lt_of_le h with heq | hlt
      · rw [← heq]
        exact hopen
      · exact hbelow fd' hlt h'

/-- How an allocation ends, `first` being where the search begins. -/
inductive Allocated (files : FilesStruct) (start : Nat) (cloexec : Bool) : Prop
  | none : files.alloc start cloexec = none →
      (∀ fd, files.nextFd ≤ fd → start ≤ fd → fd < maxOpenFilesNum → files.openFds fd = true) →
      Allocated files start cloexec
  | some {fd : Nat} {files' : FilesStruct} : files.alloc start cloexec = some (fd, files') →
      (∀ f, files'.attach fd f = files.install fd f cloexec) → files.nextFd ≤ fd → start ≤ fd →
      fd < maxOpenFilesNum → files.openFds fd = false →
      (∀ fd', files.nextFd ≤ fd' → start ≤ fd' → fd' < fd → files.openFds fd' = true) →
      Allocated files start cloexec

theorem FilesStruct.allocated (files : FilesStruct) (start : Nat) (cloexec : Bool) :
    Allocated files start cloexec := by
  obtain ⟨first, hfirst⟩ : ∃ first, first = if files.nextFd < start then start else files.nextFd := ⟨_, rfl⟩
  have hnext : files.nextFd ≤ first ∧ start ≤ first := by split at hfirst <;> omega
  have hmax : ∀ fd, files.nextFd ≤ fd → start ≤ fd → first ≤ fd := by
    intro fd h h'
    split at hfirst <;> omega
  obtain ⟨hle, hbelow, hfound, hbound⟩ :=
    firstClosed_spec files.openFds (maxOpenFilesNum - first) first
  obtain ⟨fd, hfd⟩ : ∃ fd, fd = firstClosed files.openFds (maxOpenFilesNum - first) first := ⟨_, rfl⟩
  have halloc : files.alloc start cloexec = if maxOpenFilesNum ≤ fd then none else
      some (fd, { files with
        openFds := update files.openFds fd true
        closeOnExec := update files.closeOnExec fd cloexec
        fd := update files.fd fd none
        nextFd := fd + 1 }) := by
    rw [hfd, hfirst]
    rfl
  rw [← hfd] at hle hbelow hfound hbound
  by_cases hend : maxOpenFilesNum ≤ fd
  · rw [if_pos hend] at halloc
    exact .none halloc fun fd' h h' hlt => hbelow fd' (hmax fd' h h') (by omega)
  · rw [if_neg hend] at halloc
    refine .some halloc (fun f => ?_) (by omega) (by omega) (by omega) (hfound (by omega))
      fun fd' h h' hlt => hbelow fd' (hmax fd' h h') hlt
    unfold FilesStruct.attach FilesStruct.install
    rw [update_idem, update_idem]

/-! ## The hint -/

/-- All descriptors below `next_fd` are open. -/
def FilesStruct.Hint (files : FilesStruct) : Prop :=
  ∀ fd < files.nextFd, fd < maxOpenFilesNum → files.openFds fd = true

/-- An allocation takes the lowest closed descriptor from its start on, if there is one. -/
def FilesStruct.AllocatesLowest (files : FilesStruct) : Prop :=
  ∀ start cloexec, match files.alloc start cloexec with
    | none => files.descs.Full start
    | some (fd, _) => files.descs.Lowest start fd

theorem FilesStruct.Hint.alloc (h : files.Hint) (hfiles : files.Consistent) (start : Nat) (cloexec : Bool) :
    (files.alloc start cloexec = none ∧ files.descs.Full start) ∨
      ∃ fd files', files.alloc start cloexec = some (fd, files') ∧
        (∀ f, files'.attach fd f = files.install fd f cloexec) ∧ files.descs.Lowest start fd := by
  rcases files.allocated start cloexec with ⟨hnone, hopen⟩ | ⟨hsome, hattach, hnext, hstart, hlt, hclosed, hopen⟩
  · refine .inl ⟨hnone, fun fd hge hlt => hfiles.descs_open.1 ?_⟩
    rcases lt_or_ge fd files.nextFd with hbelow | hge'
    · exact h fd hbelow hlt
    · exact hopen fd hge' hge hlt
  · refine .inr ⟨_, _, hsome, hattach, hstart, hlt, ?_, fun fd' hge hlt' => hfiles.descs_open.1 ?_⟩
    · exact descs_eq_none.2 (hfiles.closed.1 hclosed)
    · rcases lt_or_ge fd' files.nextFd with hbelow | hge'
      · exact h fd' hbelow (by omega)
      · exact hopen fd' hge' hge hlt'

theorem FilesStruct.Consistent.allocatesLowest_iff (hfiles : files.Consistent) :
    files.AllocatesLowest ↔ files.Hint := by
  constructor
  · intro h fd hlt hbound
    have hlow := h 0 false
    refine hfiles.descs_open.2 fun hclosed => ?_
    rcases files.allocated 0 false with ⟨hnone, -⟩ | ⟨hsome, -, hnext, -⟩
    · rw [hnone] at hlow
      exact hlow fd (zero_le _) hbound hclosed
    · rw [hsome] at hlow
      exact hlow.least fd (zero_le _) (lt_of_lt_of_le hlt hnext) hclosed
  · intro h start cloexec
    rcases h.alloc hfiles start cloexec with ⟨hnone, hfull⟩ | ⟨fd, files', hsome, -, hlow⟩
    · rw [hnone]
      exact hfull
    · rw [hsome]
      exact hlow

/-- The hint after an allocation is right if and only if all descriptors below are open. -/
theorem FilesStruct.Consistent.hint_install (hfiles : files.Consistent) (hlt : fd < maxOpenFilesNum) :
    (files.install fd f cloexec).Hint ↔ ∀ fd' < fd, files.descs fd' ≠ none := by
  have hself : (files.install fd f cloexec).openFds fd = true := update_self ..
  constructor
  · intro h fd' hlt'
    have hopen := h fd' (lt_succ_of_lt hlt') (by omega)
    rw [show (files.install fd f cloexec).openFds fd' = files.openFds fd' from
      update_of_ne (Nat.ne_of_lt hlt') ..] at hopen
    exact hfiles.descs_open.1 hopen
  · intro h fd' hlt' _
    rcases eq_or_lt_of_le (le_of_lt_succ hlt') with heq | hlt'
    · rw [heq]
      exact hself
    · rw [show (files.install fd f cloexec).openFds fd' = files.openFds fd' from
        update_of_ne (Nat.ne_of_lt hlt') ..]
      exact hfiles.descs_open.2 (h fd' hlt')

/-- An allocation with a start leaves the hint right if and only if all descriptors below the start are
open. -/
theorem FilesStruct.Consistent.hint_install_iff (hfiles : files.Consistent)
    (hlow : files.descs.Lowest start fd) :
    (files.install fd f cloexec).Hint ↔ ∀ fd' < start, files.descs fd' ≠ none := by
  rw [hfiles.hint_install hlow.bound]
  constructor
  · intro h fd' hlt
    exact h fd' (lt_of_lt_of_le hlt hlow.start_le)
  · intro h fd' hlt
    rcases lt_or_ge fd' start with hbelow | hge
    · exact h fd' hbelow
    · exact hlow.least fd' hge hlt

theorem FilesStruct.Hint.attach (h : files.Hint) : (files.attach fd f).Hint := by
  intro fd' hlt hbound
  show update files.openFds fd true fd' = true
  exact update_cases (fun _ => rfl) fun _ => h fd' hlt hbound

theorem FilesStruct.Hint.drop (h : files.Hint) : (files.drop fd).Hint := by
  intro fd' hlt hbound
  change fd' < (if fd < files.nextFd then fd else files.nextFd) at hlt
  show update files.openFds fd false fd' = true
  have hne : fd' ≠ fd := by split at hlt <;> omega
  rw [update_of_ne hne]
  exact h fd' (by split at hlt <;> omega) hbound

theorem FilesStruct.hint_copy : files.copy.Hint := nofun

end ZzzOs.Fs.Fd
