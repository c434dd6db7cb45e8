import ZzzOs.Fs.Fd.Table

/-!
# Calls on descriptor tables

What each call has to do to the maps that the tables are for (`Ideal`), and when the code does it in
every state of a run. Two calls do not always: a `dup2` to a descriptor that no table has is not refused
and overruns the table, and an `F_DUPFD` that starts above closed descriptors makes later allocations
miss them.
-/

namespace ZzzOs.Fs.Fd

open Option Nat Function Lib

variable {s s' s₁ s₂ : Sys} {K : Multiset Nat} {t f fd start fd' len : Nat} {files : FilesStruct}
  {cloexec copied mem cloneFiles : Bool} {E : Crash → Sys → Prop} {c : Call} {ret binary : Int}
  {n flags flag cmd : BitVec 32} {Q : Int → Sys → Prop} {arg : BitVec 64} {d d' : Descs}
  {slot slot' : Option (Nat × Bool)} {fds : List Nat}

/-! ## What a call is for -/

inductive Allocation (d : Descs) (start f : Nat) (cloexec : Bool) : Int → Descs → Prop
  | lowest {fd : Nat} : d.Lowest start fd →
      Allocation d start f cloexec fd (d.set fd (some (f, cloexec)))
  | full : d.Full start → Allocation d start f cloexec (-emfile) d

/-- A descriptor is duplicated. -/
def Duplication (d : Descs) (fd : BitVec 32) (start : Nat) (cloexec : Bool) (ret : Int) (d' : Descs) :
    Prop :=
  match d fd.toNat with
  | none => ret = -ebadf ∧ d' = d
  | some (f, _) => Allocation d start f cloexec ret d'

/-- Two descriptions get the lowest closed descriptors, or nothing changes. -/
inductive PipeEnds (d : Descs) (rfile wfile : Nat) (copied : Bool) : Int → Descs → Prop
  | none : d.Full 0 → PipeEnds d rfile wfile copied (-emfile) d
  | one {fd : Nat} : d.Lowest 0 fd → (d.set fd (some (rfile, false))).Full 0 →
      PipeEnds d rfile wfile copied (-emfile) d
  | uncopied {fd fd' : Nat} : d.Lowest 0 fd → (d.set fd (some (rfile, false))).Lowest 0 fd' →
      copied = false → PipeEnds d rfile wfile copied (-efault) d
  | both {fd fd' : Nat} : d.Lowest 0 fd → (d.set fd (some (rfile, false))).Lowest 0 fd' →
      copied = true → PipeEnds d rfile wfile copied 0
        ((d.set fd (some (rfile, false))).set fd' (some (wfile, false)))

def DupfdEffect (d : Descs) (fd arg : BitVec 32) (cloexec : Bool) (ret : Int) (d' : Descs) : Prop :=
  if arg.toInt < 0 then ret = -einval ∧ d' = d else Duplication d fd arg.toNat cloexec ret d'

def SetfdEffect (d : Descs) (fd : BitVec 32) (cloexec : Bool) (ret : Int) (d' : Descs) : Prop :=
  match d fd.toNat with
  | none => ret = -ebadf ∧ d' = d
  | some (f, _) => ret = 0 ∧ d' = d.set fd.toNat (some (f, cloexec))

def FcntlEffect (d : Descs) (fd : BitVec 32) (arg : BitVec 64) (ret : Int) (d' : Descs) :
    Option Fcntl → Prop
  | some .dupfd => DupfdEffect d fd (arg.setWidth 32) false ret d'
  | some .dupfdCloexec => DupfdEffect d fd (arg.setWidth 32) true ret d'
  | some .setfd => SetfdEffect d fd (arg.getLsbD 0) ret d'
  | _ => d' = d

def CloseEffect (d : Descs) (fd : BitVec 32) (ret : Int) (d' : Descs) : Prop :=
  match d fd.toNat with
  | none => ret = -ebadf ∧ d' = d
  | some _ => ret = 0 ∧ d' = d.set fd.toNat none

/-- A `dup2` to a descriptor that no table has is refused; one to the same descriptor changes nothing. -/
def Dup2Effect (d : Descs) (oldfd newfd : BitVec 32) (ret : Int) (d' : Descs) : Prop :=
  if maxOpenFilesNum ≤ newfd.toNat then ret < 0 ∧ d' = d
  else if oldfd = newfd then d' = d
  else
    match d oldfd.toNat with
    | none => ret = -ebadf ∧ d' = d
    | some (f, _) => ret = newfd.toInt ∧ d' = d.set newfd.toNat (some (f, false))

/-- What a call does to the table of the task, when `serial` is the next description -/
def Effect (d : Descs) (serial : Nat) (ret : Int) (d' : Descs) : Call → Prop
  | .open _ (.error e) => ret = e ∧ d' = d
  | .open flags (.ok _) => Allocation d 0 serial (hasFlag flags oCloexec) ret d'
  | .close fd => CloseEffect d fd ret d'
  | .dup oldfd => Duplication d oldfd 0 false ret d'
  | .dup2 oldfd newfd => Dup2Effect d oldfd newfd ret d'
  | .fcntl fd cmd arg => FcntlEffect d fd arg ret d' (Fcntl.ofCmd cmd)
  | .pipe (.failed e) => ret = e ∧ d' = d
  | .pipe (.made copied) => PipeEnds d serial (serial + 1) copied ret d'
  | _ => d' = d

def Sys.descs (s : Sys) : Nat → Descs := fun t => (s.tables t).descs

def Maps (s : Sys) (t : Nat) (d : Descs) (s' : Sys) : Prop :=
  s'.tablesNr = s.tablesNr ∧ s'.descs = update s.descs t d

/-- There is a new table. -/
def MapsNew (s : Sys) (d : Descs) (s' : Sys) : Prop :=
  s'.tablesNr = s.tablesNr + 1 ∧ s'.descs = update s.descs s.tablesNr d

/-- `exec` of a task: the descriptors that are closed, if the binary is run, are those marked so, in a
table that no other task uses. -/
def ExecEffect (s : Sys) (t : Nat) (io : ExecIo) (ret : Int) (s' : Sys) : Prop :=
  let d := if io.binary < 0 then s.descs t else (s.descs t).afterExec
  if io.before < 0 then ret = io.before ∧ Maps s t (s.descs t) s'
  else if (s.tables t).refcount ≤ 1 then ret = io.binary ∧ Maps s t d s'
  else if io.mem then ret = io.binary ∧ MapsNew s d s'
  else ret = -enomem ∧ Maps s t (s.descs t) s'

/-- What a call does -/
def Ideal (s : Sys) (t : Nat) (ret : Int) (s' : Sys) : Call → Prop
  | .fork true _ => ret = 0 ∧ Maps s t (s.descs t) s'
  | .fork false true => ret = 0 ∧ MapsNew s (s.descs t) s'
  | .fork false false => ret = -enomem ∧ Maps s t (s.descs t) s'
  | .exec io => ExecEffect s t io ret s'
  | c => ∃ d, Effect (s.descs t) s.serial ret d c ∧ Maps s t d s'

def InOrder (s : Sys) : Prop :=
  ∀ t < s.tablesNr, (s.tables t).Consistent ∧ (s.tables t).AllocatesLowest

def Sys.Correct (s : Sys) : List (Nat × Call) → Prop
  | [] => InOrder s
  | (t, c) :: calls => InOrder s ∧ ∃ ret s', c.run t s = .ok ret s' ∧ Ideal s t ret s' c ∧ s'.Correct calls

/-! ## The condition -/

def NoGap (d : Descs) (fd arg : BitVec 32) : Prop :=
  arg.toInt < 0 ∨ d fd.toNat = none ∨ d.Full arg.toNat ∨ ∀ fd' < arg.toNat, d fd' ≠ none

def InTable (d : Descs) (oldfd newfd : BitVec 32) : Prop :=
  newfd.toNat < maxOpenFilesNum ∨ (if oldfd = newfd then newfd.toInt < 0 else d oldfd.toNat = none)

def Harmless (s : Sys) (t : Nat) : Call → Prop
  | .dup2 oldfd newfd => InTable (s.descs t) oldfd newfd
  | .fcntl fd cmd arg => Fcntl.ofCmd cmd = some .dupfd ∨ Fcntl.ofCmd cmd = some .dupfdCloexec →
      NoGap (s.descs t) fd (arg.setWidth 32)
  | _ => True

/-- A call is made by a task that has a table. -/
def HasTable (s : Sys) (t : Nat) (_ : Call) : Prop := t < s.tablesNr

/-! ## States -/

/-- The invariant of the runs that are correct -/
structure Fine (s : Sys) : Prop where
  good : Good 0 s
  hints : ∀ t < s.tablesNr, (s.tables t).Hint

theorem Fine.inOrder (h : Fine s) : InOrder s := fun t ht =>
  ⟨h.good.tables t ht, (h.good.tables t ht).allocatesLowest_iff.2 (h.hints t ht)⟩

theorem fine_of_inOrder (hgood : Good 0 s) (h : InOrder s) : Fine s :=
  ⟨hgood, fun t ht => (h t ht).1.allocatesLowest_iff.1 (h t ht).2⟩

theorem SameTables.maps (h : SameTables s s') : Maps s t (s.descs t) s' := by
  refine ⟨h.2, ?_⟩
  rw [update_eq_self]
  unfold Sys.descs
  rw [h.1]

theorem SameTables.fine (h : SameTables s s') (hs : Fine s) (hgood : Good 0 s') : Fine s' := by
  refine ⟨hgood, fun t ht => ?_⟩
  rw [h.1]
  exact hs.hints t (h.2 ▸ ht)

theorem maps_refl : Maps s t (s.descs t) s := SameTables.maps ⟨rfl, rfl⟩

theorem Changed.maps (h : Changed t files s s') : Maps s t files.descs s' := by
  refine ⟨h.2, ?_⟩
  unfold Sys.descs
  rw [h.1]
  exact comp_update FilesStruct.descs ..

theorem Changed.fine (h : Changed t files s s') (hs : Fine s) (hgood : Good 0 s') (hhint : files.Hint) :
    Fine s' := by
  refine ⟨hgood, fun u hu => ?_⟩
  rw [h.1]
  exact update_cases (fun _ => hhint) fun _ => hs.hints u (h.2 ▸ hu)

/-! ## Allocation -/

theorem ofInt_toNat (hlt : fd < maxOpenFilesNum) : (BitVec.ofInt 32 (fd : Int)).toNat = fd := by
  unfold maxOpenFilesNum at hlt
  rw [BitVec.ofInt_natCast, BitVec.toNat_ofNat, mod_eq_of_lt (by omega)]

theorem attachFd_eq (ht : t < s.tablesNr) (hlt : n.toNat < maxOpenFilesNum) :
    attachFd t n f s = .ok () (s.setTable t ((s.tables t).attach n.toNat f)) := by
  have htable : tableAt t s = .ok (s.tables t) s := if_pos ht
  unfold attachFd
  rw [run_bind_ok htable, if_neg (not_le.2 hlt)]
  rfl

theorem setTable_changed (t : Nat) (files : FilesStruct) : Changed t files s (s.setTable t files) := ⟨rfl, rfl⟩

theorem allocAttach {fail k : Int → F Int} {start : BitVec 32}
    (hgood : Good (f ::ₘ K) s₁) (hsame : SameTables s s₁) (ht : t < s.tablesNr) (hhint : (s.tables t).Hint)
    (hfull : (s.descs t).Full start.toNat → wp (fail (-emfile)) Q E s₁)
    (hlow : ∀ (fd : Nat) s', (s.descs t).Lowest start.toNat fd → Good K s' → s'.files = s₁.files →
      Changed t ((s.tables t).install fd f (hasFlag flags oCloexec)) s s' → wp (k fd) Q E s') :
    wp (allocFd t start flags >>= fun n =>
      if n < 0 then fail n else attachFd t (BitVec.ofInt 32 n) f >>= fun _ => k n) Q E s₁ := by
  have ht₁ := hsame.lt ht
  have hfiles := hgood.tables t ht₁
  have hsame₁ : s₁.tables t = s.tables t := by rw [hsame.1]
  have htable : tableAt t s₁ = .ok (s.tables t) s₁ := (if_pos ht₁).trans (by rw [hsame₁])
  rcases hhint.alloc (hsame₁ ▸ hfiles) start.toNat (hasFlag flags oCloexec) with
    ⟨hnone, h⟩ | ⟨fd, files', hsome, hattach, h⟩
  · have halloc : allocFd t start flags s₁ = .ok (-emfile) s₁ := by
      unfold allocFd
      rw [run_bind_ok htable, hnone]
      rfl
    refine wp_of_bind_ok halloc ?_
    exact hfull h
  · have halloc : allocFd t start flags s₁ = .ok (fd : Int) (s₁.setTable t files') := by
      unfold allocFd
      rw [run_bind_ok htable, hsome]
      rfl
    have hself : (s₁.setTable t files').tables t = files' := update_self ..
    have ht' : t < (s₁.setTable t files').tablesNr := ht₁
    have hthen : attachFd t (BitVec.ofInt 32 fd) f (s₁.setTable t files') =
        .ok () (s₁.setTable t ((s₁.tables t).install fd f (hasFlag flags oCloexec))) := by
      rw [attachFd_eq ht' (by rw [ofInt_toNat h.bound]; exact h.bound), ofInt_toNat h.bound, hself, hattach,
        hsame₁]
      unfold Sys.setTable
      rw [update_idem]
    have hinstall := hgood.install (hasFlag flags oCloexec) ht₁ h.bound (hsame₁ ▸ descs_eq_none.1 h.closed)
    refine wp_of_bind_ok halloc (wp_of_bind_ok hthen (hlow fd _ h hinstall rfl ?_))
    exact hsame₁ ▸ Changed.of_same hsame (setTable_changed ..)

theorem fdGetFile_cases {Q : Option Nat → Sys → Prop} (h : Good K s) (ht : t < s.tablesNr)
    (hnone : s.descs t n.toNat = none → Q none s)
    (hsome : ∀ f s', (s.tables t).fd n.toNat = some f → Good (f ::ₘ K) s' → SameTables s s' →
      Q (some f) s') : wp (fdGetFile t n) Q E s := by
  have hfiles := h.tables t ht
  refine wp_bind.2 ((wp_tableAt ht).2 ?_)
  cases hslot : (s.tables t).fd n.toNat with
  | none =>
    rw [if_neg]
    · exact hnone (descs_eq_none.2 hslot)
    · rintro ⟨-, hopen⟩
      exact hfiles.descs_open.1 hopen (descs_eq_none.2 hslot)
  | some f =>
    have hopen := hfiles.open_of_slot hslot
    have hlt := hfiles.bound_of_open hopen
    rw [if_pos ⟨hlt, hopen⟩]
    refine wp_seq (getFile_spec h (Nat.add_pos_left (refs_pos ht hlt hslot) _)) fun _ s' hs' => ?_
    exact hsome f s' hslot hs'.1 hs'.2

theorem dupFrom_cases {start : BitVec 32} (h : Fine s)
    (ht : t < s.tablesNr) (hbad : s.descs t n.toNat = none → Q (-ebadf) s)
    (hfull : ∀ s', s.descs t n.toNat ≠ none → (s.descs t).Full start.toNat → Good 0 s' →
      SameTables s s' → Q (-emfile) s')
    (hlow : ∀ f (fd : Nat) s', (s.tables t).fd n.toNat = some f → (s.descs t).Lowest start.toNat fd →
      Good 0 s' → Changed t ((s.tables t).install fd f (hasFlag flags oCloexec)) s s' → Q fd s') :
    wp (dupFrom t n start flags) Q E s := by
  refine wp_bind.2 (fdGetFile_cases h.good ht hbad fun f s₁ hslot hgood hsame => ?_)
  have hfiles := h.good.tables t ht
  refine allocAttach hgood hsame ht (h.hints t ht) (fun hall => ?_)
    fun fd s' hlowest hgood' _ => hlow f fd s' hslot hlowest hgood'
  -- the old descriptor keeps the description
  have hopen := hfiles.open_of_slot hslot
  have hpos := refs_pos (hsame.lt ht) (hfiles.bound_of_open hopen) (hsame.1.symm ▸ hslot)
  refine wp_seq (putFile_spec hgood (Nat.add_pos_left hpos _)) fun _ s' hs' => ?_
  exact hfull s' (hfiles.descs_open.1 hopen) hall hs'.1 (hsame.trans hs'.2)

/-! ## Each call -/

/-- A call has returned: its references are counted, and what it did is right if and only if it is
harmless. -/
structure Done (s : Sys) (t : Nat) (c : Call) (ret : Int) (s' : Sys) : Prop where
  good : Good 0 s'
  right : Ideal s t ret s' c ∧ Fine s' ↔ Harmless s t c

theorem Done.of_fine (hideal : Ideal s t ret s' c) (hfine : Fine s') (h : Harmless s t c) :
    Done s t c ret s' :=
  ⟨hfine.good, iff_of_true ⟨hideal, hfine⟩ h⟩

section

variable (h : Fine s) (ht : t < s.tablesNr)

include h ht

theorem sysOpen_done {file : Except Int FileOperations} :
    wp (sysOpen t flags file) (Done s t (.open flags file)) E s := by
  cases file with
  | error e => exact .of_fine ⟨_, ⟨rfl, rfl⟩, maps_refl⟩ h trivial
  | ok fOp =>
    refine wp_seq (newFile_spec h.good) fun f s₁ ⟨hf, hgood, hsame, _, hone, _⟩ => ?_
    refine allocAttach hgood hsame ht (h.hints t ht) (fun hfull => ?_)
      fun fd s' hlow hgood' _ hchanged => ?_
    · refine wp_seq (filpClose_spec hgood hone) fun _ s' hs' => ?_
      obtain ⟨hgood', hsame', -⟩ := hs'
      have hsame'' := hsame.trans hsame'
      exact .of_fine ⟨_, .full hfull, hsame''.maps⟩ (hsame''.fine h hgood') trivial
    · refine .of_fine ⟨_, ?_, hchanged.maps⟩ (hchanged.fine h hgood' ?_) trivial
      · rw [descs_install, hf]
        exact .lowest hlow
      · exact ((h.good.tables t ht).hint_install_iff hlow).2 nofun

theorem sysClose_done : wp (sysClose t n) (Done s t (.close n)) E s := by
  refine closeFd_cases h.good ht (fun hnone => ?_) fun f s' hslot hgood hchanged _ => ?_
  · refine .of_fine ⟨s.descs t, ?_, maps_refl⟩ h trivial
    have hd : s.descs t n.toNat = none := descs_eq_none.2 hnone
    simp [Effect, CloseEffect, hd]
  · refine .of_fine ⟨_, ?_, hchanged.maps⟩ (hchanged.fine h hgood (h.hints t ht).drop) trivial
    have hd : s.descs t n.toNat = some (f, _) := descs_of_slot hslot
    simp only [Effect, CloseEffect, hd]
    exact ⟨trivial, descs_drop⟩

/-- A duplication from `start` on is right, and leaves the tables in order if and only if there is no
gap below the start that it leaves. -/
theorem dupFrom_done {start : BitVec 32} : wp (dupFrom t n start flags) (fun ret s' => Good 0 s' ∧
      (∃ d, Duplication (s.descs t) n start.toNat (hasFlag flags oCloexec) ret d ∧ Maps s t d s') ∧
      (Fine s' ↔ s.descs t n.toNat = none ∨ (s.descs t).Full start.toNat ∨
        ∀ fd < start.toNat, s.descs t fd ≠ none)) E s := by
  refine dupFrom_cases h ht (fun hnone => ?_) (fun s' hopen hfull hgood hsame => ?_)
    fun f fd s' hslot hlow hgood hchanged => ?_
  · refine ⟨h.good, ⟨_, ?_, maps_refl⟩, iff_of_true h (.inl hnone)⟩
    simp [Duplication, hnone]
  · refine ⟨hgood, ⟨_, ?_, hsame.maps⟩, iff_of_true (hsame.fine h hgood) (.inr (.inl hfull))⟩
    obtain ⟨⟨f, flag⟩, hd⟩ := ne_none_iff_exists'.1 hopen
    unfold Duplication
    rw [hd]
    exact .full hfull
  · have hd : s.descs t n.toNat = some (f, _) := descs_of_slot hslot
    have hfiles := h.good.tables t ht
    refine ⟨hgood, ⟨_, ?_, hchanged.maps⟩, ?_⟩
    · unfold Duplication
      rw [hd, descs_install]
      exact .lowest hlow
    · constructor
      · intro hfine
        have hhint := hfine.hints t (hchanged.lt ht)
        rw [hchanged.self] at hhint
        exact .inr (.inr ((hfiles.hint_install_iff hlow).1 hhint))
      · rintro (hnone | hfull | hbelow)
        · simp [hd] at hnone
        · exact absurd hfull hlow.not_full
        · exact hchanged.fine h hgood ((hfiles.hint_install_iff hlow).2 hbelow)

theorem sysDup_done : wp (sysDup t n) (Done s t (.dup n)) E s := by
  refine wp_post (fun ret s' hs' => ?_) (dupFrom_done h ht)
  obtain ⟨hgood, hideal, hfine⟩ := hs'
  exact .of_fine hideal (hfine.2 (.inr (.inr nofun))) trivial

theorem fcntlDupfd_done (n arg flags : BitVec 32) :
    wp (fcntlDupfd t n arg flags) (fun ret s' => Good 0 s' ∧
      (∃ d, DupfdEffect (s.descs t) n arg (hasFlag flags oCloexec) ret d ∧ Maps s t d s') ∧
      (Fine s' ↔ NoGap (s.descs t) n arg)) E s := by
  unfold fcntlDupfd NoGap DupfdEffect
  by_cases hneg : arg.toInt < 0
  · rw [if_pos hneg]
    exact ⟨h.good, ⟨_, by simp [hneg], maps_refl⟩, iff_of_true h (.inl hneg)⟩
  · rw [if_neg hneg]
    refine wp_post (fun ret s' hs' => ?_) (dupFrom_done h ht)
    obtain ⟨hgood, hideal, hfine⟩ := hs'
    simp only [hneg, if_false, false_or]
    exact ⟨hgood, hideal, hfine⟩

theorem sysDup2_done {oldfd newfd : BitVec 32} :
    wp (sysDup2 t oldfd newfd) (Done s t (.dup2 oldfd newfd))
      (fun _ _ => ¬ Harmless s t (.dup2 oldfd newfd)) s := by
  have hfiles := h.good.tables t ht
  unfold sysDup2
  split <;> rename_i heq
  · refine ⟨h.good, ?_⟩
    by_cases hlt : newfd.toNat < maxOpenFilesNum
    · refine iff_of_true ⟨⟨_, ?_, maps_refl⟩, h⟩ (.inl hlt)
      simp [Effect, Dup2Effect, Nat.not_le.2 hlt, heq]
    · have hge := Nat.le_of_not_lt hlt
      constructor
      · rintro ⟨⟨d, heffect, -⟩, -⟩
        simp only [Effect, Dup2Effect, if_pos hge] at heffect
        exact .inr (by rw [if_pos heq]; exact heffect.1)
      · rintro (hlt' | hneg)
        · exact absurd hlt' hlt
        · rw [if_pos heq] at hneg
          refine ⟨⟨_, ?_, maps_refl⟩, h⟩
          simp [Effect, Dup2Effect, hge, hneg]
  · refine wp_bind.2 (fdGetFile_cases h.good ht (fun hnone => ?_) fun f s₁ hslot hgood hsame₁ => ?_)
    · refine .of_fine ⟨_, ?_, maps_refl⟩ h (.inr (by rw [if_neg heq]; exact hnone))
      simp [Effect, Dup2Effect, heq, hnone, ebadf]
    · have hd : s.descs t oldfd.toNat = some (f, _) := descs_of_slot hslot
      have ht₁ := hsame₁.lt ht
      have htable : s₁.tables t = s.tables t := by rw [hsame₁.1]
      have heffect : ∀ {d : Descs}, newfd.toNat < maxOpenFilesNum →
          d = (s.descs t).set newfd.toNat (some (f, false)) →
          Effect (s.descs t) s.serial newfd.toInt d (.dup2 oldfd newfd) := by
        intro d hlt hset
        simp [Effect, Dup2Effect, Nat.not_le.2 hlt, heq, hd, hset]
      refine wp_bind.2 (closeFd_cases hgood ht₁ (fun hnone => ?_) fun f' s₂ hslot' hgood' hchanged _ => ?_)
      · rw [htable] at hnone
        by_cases hlt : newfd.toNat < maxOpenFilesNum
        · refine wp_of_bind_ok (attachFd_eq ht₁ hlt) ?_
          have hgood' := hgood.attach ht₁ hlt (htable.symm ▸ hnone)
          rw [htable] at hgood' ⊢
          have hchanged := Changed.of_same hsame₁
            (setTable_changed t ((s.tables t).attach newfd.toNat f))
          exact .of_fine ⟨_, heffect hlt (hfiles.descs_attach (descs_eq_none.2 hnone)), hchanged.maps⟩
            (hchanged.fine h hgood' (h.hints t ht).attach) (.inl hlt)
        · -- the table is overrun
          refine wp_bind.2 (wp_bind.2 ((wp_tableAt ht₁).2 ?_))
          rw [if_pos (Nat.le_of_not_lt hlt)]
          rintro (hlt' | hold)
          · exact hlt hlt'
          · simp [heq, hd] at hold
      · rw [htable] at hslot' hchanged
        have hopen := hfiles.open_of_slot hslot'
        have hlt := hfiles.bound_of_open hopen
        have ht₂ := hchanged.lt ht₁
        have hclosed : (s₂.tables t).fd newfd.toNat = none := by
          rw [hchanged.self]
          exact update_self ..
        refine wp_of_bind_ok (attachFd_eq ht₂ hlt) ?_
        have hgood'' := hgood'.attach ht₂ hlt hclosed
        rw [hchanged.self] at hgood'' ⊢
        have hchanged' := Changed.of_same hsame₁ (hchanged.trans
          (setTable_changed t (((s.tables t).drop newfd.toNat).attach newfd.toNat f)))
        refine .of_fine ⟨_, heffect hlt ?_, hchanged'.maps⟩
          (hchanged'.fine h hgood'' (h.hints t ht).drop.attach) (.inl hlt)
        have hdescs : ((s.tables t).drop newfd.toNat).descs newfd.toNat = none := by
          rw [descs_drop, Descs.set_self]
        rw [(hfiles.drop hlt).descs_attach hdescs, descs_drop, Descs.set_set]
        rfl

end

theorem Good.file (h : Good K s) (ht : t < s.tablesNr) (hlt : fd < maxOpenFilesNum)
    (hslot : (s.tables t).fd fd = some f) :
    ∃ file, s.files f = some file ∧ file.fCount = s.refs f + K.count f :=
  h.allocated (Nat.add_pos_left (refs_pos ht hlt hslot) _)

theorem sysFdget_descs {Q : Option Nat → Sys → Prop} (hfiles : (s.tables t).Consistent)
    (ht : t < s.tablesNr) (hnone : s.descs t n.toNat = none → Q none s)
    (hsome : ∀ f, Slot s t n.toNat f → Q (some f) s) : wp (sysFdget t n) Q E s := by
  have hclosed : (∀ f, ¬ Slot s t n.toNat f) → s.descs t n.toNat = none := by
    intro hno
    cases hslot : (s.tables t).fd n.toNat with
    | none => exact descs_eq_none.2 hslot
    | some f =>
      have hopen := hfiles.open_of_slot hslot
      exact absurd ⟨ht, hfiles.bound_of_open hopen, hopen, hslot⟩ (hno f)
  unfold sysFdget
  split <;> rename_i hneg
  · exact hnone (hclosed fun f hslot => (fd_range.2 hslot.bound).1 hneg)
  · refine wp_bind.2 ((wp_tableAt ht).2 ?_)
    split <;> rename_i hopen
    · have hlt := fd_range.1 ⟨hneg, hopen.1⟩
      obtain ⟨f, hslot⟩ := isSome_iff_exists.1 ((hfiles.slots n.toNat).symm.trans hopen.2)
      rw [hslot]
      exact hsome f ⟨ht, hlt, hopen.2, hslot⟩
    · exact hnone (hclosed fun f hslot => hopen ⟨(fd_range.2 hslot.bound).2, hslot.isOpen⟩)

theorem sysFcntl_setfd (h : Fine s) (ht : t < s.tablesNr) : wp (do match ← sysFdget t n with
      | none => return -ebadf
      | some _ =>
        setCloseOnExec t n (arg.getLsbD 0)
        return 0 : F Int)
      (fun ret s' => (∃ d, SetfdEffect (s.descs t) n (arg.getLsbD 0) ret d ∧ Maps s t d s') ∧ Fine s')
      E s := by
  have hfiles := h.good.tables t ht
  refine wp_bind.2 (sysFdget_descs hfiles ht (fun hnone => ?_) fun f hslot => ?_)
  · exact ⟨⟨s.descs t, by simp [SetfdEffect, hnone], maps_refl⟩, h⟩
  · refine wp_bind.2 (wp_bind.2 ((wp_tableAt ht).2 ?_))
    rw [if_neg (not_le.2 hslot.bound)]
    have hgood := h.good.sameSlots ht (hfiles.setCloexec (arg.getLsbD 0) hslot.isOpen) rfl
    have hchanged := setTable_changed (s := s) t { s.tables t with
      closeOnExec := update (s.tables t).closeOnExec n.toNat (arg.getLsbD 0) }
    refine ⟨⟨_, ?_, hchanged.maps⟩, hchanged.fine h hgood (h.hints t ht)⟩
    have hd : s.descs t n.toNat = some (f, _) := descs_of_slot hslot.slot
    simp only [SetfdEffect, hd]
    exact ⟨trivial, descs_setCloexec hslot.slot⟩

theorem sysFcntl_done (h : Fine s) (ht : t < s.tablesNr) :
    wp (sysFcntl t n cmd arg) (Done s t (.fcntl n cmd arg)) E s := by
  have hfiles := h.good.tables t ht
  have hideal : ∀ {s' : Sys} {ret : Int}, (∃ d, FcntlEffect (s.descs t) n arg ret d (Fcntl.ofCmd cmd) ∧
      Maps s t d s') → Ideal s t ret s' (.fcntl n cmd arg) := id
  have hharmless : Harmless s t (.fcntl n cmd arg) ↔ (Fcntl.ofCmd cmd = some .dupfd ∨
      Fcntl.ofCmd cmd = some .dupfdCloexec → NoGap (s.descs t) n (arg.setWidth 32)) := Iff.rfl
  -- a command that changes no table
  have hstay : ∀ {ret}, FcntlEffect (s.descs t) n arg ret (s.descs t) (Fcntl.ofCmd cmd) →
      Harmless s t (.fcntl n cmd arg) → Done s t (.fcntl n cmd arg) ret s := fun heffect =>
    .of_fine (hideal ⟨_, heffect, maps_refl⟩) h
  rw [hharmless] at hstay
  unfold sysFcntl
  cases hcmd : Fcntl.ofCmd cmd with
  | none =>
    rw [hcmd] at hstay
    exact hstay rfl nofun
  | some k =>
    rw [hcmd] at hideal hharmless hstay
    cases k with
    | dupfd | dupfdCloexec =>
      refine wp_post (fun ret s' hs' => ?_) (fcntlDupfd_done h ht n (arg.setWidth 32) _)
      obtain ⟨hgood, heffect, hfine⟩ := hs'
      refine ⟨hgood, ?_⟩
      rw [hharmless]
      exact ⟨fun hs _ => hfine.1 hs.2, fun hs => ⟨hideal heffect, hfine.2 (hs (by simp))⟩⟩
    | getfd =>
      show wp (fdGetCloseOnExec t n) _ E s
      unfold fdGetCloseOnExec
      split
      · exact hstay rfl nofun
      · refine wp_bind.2 ((wp_tableAt ht).2 ?_)
        split <;> exact hstay rfl nofun
    | setfd =>
      refine wp_post (fun ret s' hs' => ?_) (sysFcntl_setfd h ht)
      exact .of_fine (hideal hs'.1) hs'.2 (hharmless.2 nofun)
    | getfl =>
      refine wp_bind.2 (sysFdget_descs hfiles ht (fun _ => hstay rfl nofun) fun f hslot => ?_)
      obtain ⟨file, hfile, -⟩ := h.good.file ht hslot.bound hslot.slot
      exact wp_of_bind_ok (fileAt_eq hfile) (hstay rfl nofun)
    | setfl =>
      refine wp_bind.2 (sysFdget_descs hfiles ht (fun _ => hstay rfl nofun) fun f hslot => ?_)
      obtain ⟨file, hfile, hcount⟩ := h.good.file ht hslot.bound hslot.slot
      refine wp_of_bind_ok (fileAt_eq hfile) (wp_bind.2 (wp_modify.2 ?_))
      have hsame : SameTables s (s.setFile f (some { file with
        fFlags := setFlags file.fFlags (arg.setWidth 32) })) := ⟨rfl, rfl⟩
      have hgood : Good 0 (s.setFile f (some { file with
          fFlags := setFlags file.fFlags (arg.setWidth 32) })) := by
        refine h.good.setFile hcount (fun x hx => ?_) (fun _ _ => rfl) (h.good.lt_serial hfile)
        cases hx
        exact h.good.live f file hfile
      exact .of_fine (hideal ⟨_, rfl, hsame.maps⟩) (hsame.fine h hgood) (hharmless.2 nofun)

theorem Descs.set_comm (hne : fd ≠ fd') :
    (d.set fd slot).set fd' slot' = (d.set fd' slot').set fd slot :=
  update_comm hne ..

theorem Descs.close_one (h : d fd = none) : (d.set fd slot).set fd none = d := by
  rw [Descs.set_set, Descs.set_same h]

theorem Descs.close_both (hne : fd' ≠ fd) (h : d fd = none) (h' : d fd' = none) :
    (((d.set fd slot).set fd' slot').set fd none).set fd' none = d := by
  have hswap : ((d.set fd slot).set fd' slot').set fd none = ((d.set fd slot).set fd none).set fd' slot' :=
    Descs.set_comm hne
  rw [hswap, Descs.close_one h, Descs.close_one h']

theorem closeFd_open (h : Good K s) (ht : t < s.tablesNr) (hslot : (s.tables t).fd fd = some f)
    (hrest : ∀ s', Good K s' → Changed t ((s.tables t).drop fd) s s' → CountsBut f s s' → Q 0 s') :
    wp (closeFd t (BitVec.ofInt 32 fd)) Q E s := by
  have hfiles := h.tables t ht
  have hfd := ofInt_toNat (hfiles.bound_of_open (hfiles.open_of_slot hslot))
  refine closeFd_cases h ht (fun hnone => ?_) fun f' s' hf hgood hchanged hcounts => ?_
  · rw [hfd, hslot] at hnone
    cases hnone
  · rw [hfd] at hf hchanged
    cases hslot.symm.trans hf
    exact hrest s' hgood hchanged hcounts

/-- The second half of `sys_pipe`, in a state in which the read end has its descriptor -/
theorem pipeWriteEnd_cases {rfile wfile fd₀ : Nat}
    (hgood : Good {wfile} s) (ht : t < s.tablesNr) (hhint : (s.tables t).Hint)
    (hne : wfile ≠ rfile) (hone : s.count wfile = 1) (hslot : (s.tables t).fd fd₀ = some rfile)
    (hfull : ∀ s', (s.tables t).descs.Full 0 → Good 0 s' → Changed t ((s.tables t).drop fd₀) s s' →
      Q (-emfile) s')
    (hlow : ∀ fd₁ s', (s.tables t).descs.Lowest 0 fd₁ → Good 0 s' →
      (copied = true → Changed t ((s.tables t).install fd₁ wfile false) s s' → Q 0 s') ∧
      (copied = false → Changed t ((((s.tables t).install fd₁ wfile false).drop fd₀).drop fd₁) s s' →
        Q (-efault) s')) :
    wp (pipeWriteEnd t copied fd₀ wfile) Q E s := by
  refine allocAttach hgood ⟨rfl, rfl⟩ ht hhint (fun h => ?_) fun fd₁ s₁ h hgood₁ _ hchanged => ?_
  · refine wp_bind.2 (closeFd_open hgood ht hslot fun s₁ hgood₁ hchanged hcounts => ?_)
    refine wp_seq (filpClose_spec hgood₁ ((hcounts wfile hne).trans hone)) fun _ s' hs' => ?_
    exact hfull s' h hs'.1 (hchanged.then_same hs'.2.1)
  · cases copied with
    | true => exact (hlow fd₁ _ h hgood₁).1 rfl hchanged
    | false =>
      have hfd : fd₀ ≠ fd₁ := by
        rintro rfl
        rw [descs_eq_none.1 h.closed] at hslot
        cases hslot
      have hslot₀ : (s₁.tables t).fd fd₀ = some rfile := by
        rw [hchanged.self]
        exact (update_of_ne hfd ..).trans hslot
      refine wp_bind.2 (closeFd_open hgood₁ (hchanged.lt ht) hslot₀ fun s₂ hgood₂ hchanged₂ _ => ?_)
      rw [hchanged.self] at hchanged₂
      have hall := hchanged.trans hchanged₂
      have hslot₁ : (s₂.tables t).fd fd₁ = some wfile := by
        rw [hall.self]
        exact (update_of_ne hfd.symm ..).trans (update_self ..)
      refine wp_bind.2 (closeFd_open hgood₂ (hall.lt ht) hslot₁ fun s' hgood' hchanged' _ => ?_)
      rw [hall.self] at hchanged'
      exact (hlow fd₁ s' h hgood').2 rfl (hall.trans hchanged')

theorem pipeWriteEnd_done (h : Fine s) (ht : t < s.tablesNr)
    (hlow : (s.descs t).Lowest 0 fd) (hgood : Good {s.serial + 1} s₁) (hone : s₁.count (s.serial + 1) = 1)
    (hchanged : Changed t ((s.tables t).install fd s.serial false) s s₁) :
    wp (pipeWriteEnd t copied fd (s.serial + 1)) (Done s t (.pipe (.made copied))) E s₁ := by
  have hfiles := h.good.tables t ht
  have hself := hchanged.self
  have hhint : ((s.tables t).install fd s.serial false).Hint := (hfiles.hint_install_iff hlow).2 nofun
  have hdescs : ((s.tables t).install fd s.serial false).descs =
      (s.descs t).set fd (some (s.serial, false)) := descs_install
  have hnext : ∀ {fd' : Nat}, ((s.tables t).install fd s.serial false).descs.Lowest 0 fd' →
      (((s.tables t).install fd s.serial false).install fd' (s.serial + 1) false).Hint := fun hlow' =>
    ((hfiles.install hlow.bound).hint_install_iff hlow').2 nofun
  refine pipeWriteEnd_cases hgood (hchanged.lt ht) (hself ▸ hhint) (succ_ne_self s.serial) hone
    (by rw [hself]; exact update_self ..) (fun s' hfull hgood' hchanged' => ?_)
    fun fd' s' hlow' hgood' => ⟨fun hcopied hchanged' => ?_, fun hcopied hchanged' => ?_⟩
  · rw [hself, hdescs] at hfull
    rw [hself] at hchanged'
    have hall := hchanged.trans hchanged'
    refine .of_fine ⟨_, ?_, hall.maps⟩ (hall.fine h hgood' hhint.drop) trivial
    rw [descs_drop, hdescs, Descs.close_one hlow.closed]
    exact .one hlow hfull
  · rw [hself] at hchanged' hlow'
    have hall := hchanged.trans hchanged'
    refine .of_fine ⟨_, ?_, hall.maps⟩ (hall.fine h hgood' (hnext hlow')) trivial
    rw [hdescs] at hlow'
    rw [descs_install, hdescs]
    exact .both hlow hlow' hcopied
  · rw [hself] at hchanged' hlow'
    have hall := hchanged.trans hchanged'
    refine .of_fine ⟨_, ?_, hall.maps⟩ (hall.fine h hgood' (hnext hlow').drop.drop) trivial
    rw [hdescs] at hlow'
    have hne : fd' ≠ fd := by
      rintro rfl
      have hclosed := hlow'.closed
      rw [Descs.set_self] at hclosed
      cases hclosed
    have hclosed : s.descs t fd' = none := by
      rw [← hlow'.closed, Descs.set_of_ne hne]
    rw [descs_drop, descs_drop, descs_install, hdescs, Descs.close_both hne hlow.closed hclosed]
    exact .uncopied hlow hlow' hcopied

theorem sysPipe_done {io : PipeIo} (h : Fine s) (ht : t < s.tablesNr) :
    wp (sysPipe t io) (Done s t (.pipe io)) E s := by
  cases io with
  | failed e => exact .of_fine ⟨_, ⟨rfl, rfl⟩, maps_refl⟩ h trivial
  | made copied =>
    refine wp_seq (newFile_spec h.good) fun r s₁ ⟨hr, hgood₁, hsame₁, hserial, hone₁, _⟩ => ?_
    refine wp_seq (newFile_spec hgood₁) fun w s₂ ⟨hw, hgood₂, hsame₂, _, hone₂, hcounts₂⟩ => ?_
    rw [hserial] at hw
    subst hr hw
    have hne : s.serial + 1 ≠ s.serial := succ_ne_self _
    have hsame := hsame₁.trans hsame₂
    have hcount : s₂.count s.serial = 1 := (hcounts₂ _ hne.symm).trans hone₁
    have hgood : Good (s.serial ::ₘ {s.serial + 1}) s₂ := by
      rw [← Multiset.cons_zero, Multiset.cons_swap]
      exact hgood₂
    refine allocAttach hgood hsame ht (h.hints t ht) (fun hfull => ?_)
      fun fd s₃ hlow hgood₃ hfiles hchanged => ?_
    · refine wp_seq (filpClose_spec hgood hcount) fun _ s₃ hs₃ => ?_
      obtain ⟨hgood₃, hsame₃, hcounts₃⟩ := hs₃
      refine wp_seq (filpClose_spec hgood₃ ((hcounts₃ _ hne).trans hone₂)) fun _ s' hs' => ?_
      have hsame' := (hsame.trans hsame₃).trans hs'.2.1
      exact .of_fine ⟨_, .none hfull, hsame'.maps⟩ (hsame'.fine h hs'.1) trivial
    · refine pipeWriteEnd_done h ht hlow hgood₃ ?_ hchanged
      rw [Sys.count, hfiles]
      exact hone₂

/-! ## Tables of other tasks -/

/-- The new table is a copy of the one of the task, and the others are as they were. -/
theorem mapsNew_of_copy (hfiles : (s.tables t).Consistent) (hnr : s'.tablesNr = s.tablesNr + 1)
    (htables : s'.tables = update s.tables s.tablesNr (s.tables t).copy) :
    MapsNew s (s.descs t) s' := by
  refine ⟨hnr, ?_⟩
  unfold Sys.descs
  rw [htables, ← hfiles.descs_copy]
  exact comp_update FilesStruct.descs ..

theorem Fine.of_copy (h : Fine s) (hgood : Good 0 s') (hnr : s'.tablesNr = s.tablesNr + 1)
    (htables : s'.tables = update s.tables s.tablesNr files.copy) : Fine s' := by
  refine ⟨hgood, fun u hu => ?_⟩
  rw [htables]
  exact update_cases (fun _ => FilesStruct.hint_copy) fun hlast => h.hints u (by omega)

theorem sysFork_done (h : Fine s) (ht : t < s.tablesNr) :
    wp (sysFork t cloneFiles mem) (Done s t (.fork cloneFiles mem)) E s := by
  have hfiles := h.good.tables t ht
  cases cloneFiles with
  | true =>
    refine wp_bind.2 ((wp_tableAt ht).2 (wp_bind.2 (wp_modify.2 ?_)))
    have hchanged := setTable_changed (s := s) t { s.tables t with refcount := (s.tables t).refcount + 1 }
    have hgood := h.good.sameSlots ht (hfiles.setRefcount ((s.tables t).refcount + 1)) rfl
    exact .of_fine ⟨rfl, hchanged.maps⟩ (hchanged.fine h hgood (h.hints t ht)) trivial
  | false =>
    refine wp_seq (dupFd_spec h.good ht) fun r s' ⟨hgood, hnone, hsome⟩ => ?_
    cases mem with
    | false =>
      obtain ⟨rfl, rfl⟩ := hnone rfl
      exact .of_fine ⟨rfl, maps_refl⟩ h trivial
    | true =>
      obtain ⟨rfl, hnr, htables⟩ := hsome rfl
      exact .of_fine ⟨rfl, mapsNew_of_copy hfiles hnr htables⟩ (h.of_copy hgood hnr htables) trivial

/-! ## `exec` -/

def Descs.closed (d : Descs) (fds : List Nat) : Descs := fun fd => if fd ∈ fds then d.afterExec fd else d fd

theorem afterExec_none (h : d fd = none) : d.afterExec fd = none := by
  unfold Descs.afterExec
  rw [h]
  rfl

theorem Descs.closed_cons (hself : d' fd = d.afterExec fd)
    (hother : ∀ fd' ≠ fd, d' fd' = d fd') : d'.closed fds = d.closed (fd :: fds) := by
  have htwice : d'.afterExec fd = d.afterExec fd := by
    unfold Descs.afterExec at hself ⊢
    rw [hself]
    cases d fd with
    | none => rfl
    | some slot => cases hslot : slot.2 <;> simp [Option.filter, hslot]
  funext fd'
  unfold Descs.closed
  by_cases hne : fd' = fd
  · rw [hne, if_pos List.mem_cons_self]
    split
    · exact htwice
    · exact hself
  · have hmem : fd' ∈ fd :: fds ↔ fd' ∈ fds := by simp [hne]
    have hafter : d'.afterExec fd' = d.afterExec fd' := by
      unfold Descs.afterExec
      rw [hother fd' hne]
    simp only [hmem, hother fd' hne, hafter]

section

variable (hgood : Good K s) (ht : t < s.tablesNr) (hhint : (s.tables t).Hint)

include hgood ht hhint

theorem closeOnExecAt_spec :
    wp (closeOnExecAt t fd) (fun _ s' => Good K s' ∧ ∃ files, Changed t files s s' ∧ files.Hint ∧
      files.descs fd = (s.tables t).descs.afterExec fd ∧
      ∀ fd' ≠ fd, files.descs fd' = (s.tables t).descs fd') E s := by
  have hfiles := hgood.tables t ht
  refine wp_bind.2 ((wp_tableAt ht).2 ?_)
  split <;> rename_i hmarked
  · obtain ⟨f, hslot⟩ := isSome_iff_exists.1 ((hfiles.slots fd).symm.trans hmarked.1)
    have hdropped := hgood.drop ht (hfiles.bound_of_open hmarked.1) hslot
    refine wp_bind.2 (wp_modify.2 ?_)
    rw [hslot]
    refine wp_bind.2 (wp_post (fun _ _ hs => wp_mono (fun _ s' hs' => ?_) (fun _ _ he => he) hs) (putRelease_spec hdropped))
    obtain ⟨hgood', hsame, -⟩ := hs'
    refine ⟨hgood', _, (setTable_changed t ((s.tables t).drop fd)).then_same hsame, hhint.drop, ?_, ?_⟩
    · rw [descs_drop, Descs.set_self]
      unfold Descs.afterExec
      rw [descs_of_slot hslot, hmarked.2]
      rfl
    · intro fd' hne
      rw [descs_drop, Descs.set_of_ne hne]
  · refine ⟨hgood, s.tables t, ⟨(update_eq_self ..).symm, rfl⟩, hhint, ?_, fun _ _ => rfl⟩
    unfold Descs.afterExec
    cases hslot : (s.tables t).fd fd with
    | none =>
      rw [descs_eq_none.2 hslot]
      rfl
    | some f =>
      have hopen := hfiles.open_of_slot hslot
      have hflag : (s.tables t).closeOnExec fd = false :=
        Bool.eq_false_iff.2 fun hset => hmarked ⟨hopen, hset⟩
      rw [descs_of_slot hslot, hflag]
      rfl

theorem doCloseOnExec_spec :
    wp (doCloseOnExec t fds) (fun _ s' => Good K s' ∧ ∃ files, Changed t files s s' ∧ files.Hint ∧
      files.descs = (s.tables t).descs.closed fds) E s := by
  induction fds generalizing s with
  | nil => exact ⟨hgood, s.tables t, ⟨(update_eq_self ..).symm, rfl⟩, hhint, rfl⟩
  | cons fd fds ih =>
    refine wp_seq (closeOnExecAt_spec hgood ht hhint) fun _ s₁ ⟨hgood₁, files₁, hchanged₁, hhint₁, hself, hother⟩ => ?_
    refine wp_post (fun _ s' hs' => ?_) (ih hgood₁ (hchanged₁.lt ht) (hchanged₁.self ▸ hhint₁))
    obtain ⟨hgood', files', hchanged', hhint', hdescs⟩ := hs'
    refine ⟨hgood', files', hchanged₁.trans hchanged', hhint', ?_⟩
    rw [hdescs, hchanged₁.self, Descs.closed_cons hself hother]

end

theorem FilesStruct.Consistent.descs_closed (h : files.Consistent) :
    files.descs.closed (List.range maxOpenFilesNum) = files.descs.afterExec := by
  funext fd
  unfold Descs.closed
  split_ifs with hmem
  · rfl
  · rw [List.mem_range, not_lt] at hmem
    rw [h.descs_bound hmem, afterExec_none (h.descs_bound hmem)]

theorem execBinary_spec (h : Fine s) (ht : t < s.tablesNr) : wp (if binary < 0 then pure binary
      else doCloseOnExec t (List.range maxOpenFilesNum) >>= fun _ => pure binary)
      (fun ret s' => ret = binary ∧ Fine s' ∧
        Maps s t (if binary < 0 then s.descs t else (s.descs t).afterExec) s') E s := by
  by_cases hneg : binary < 0
  · rw [if_pos hneg, if_pos hneg]
    exact ⟨rfl, h, maps_refl⟩
  · rw [if_neg hneg, if_neg hneg]
    refine wp_seq (doCloseOnExec_spec h.good ht (h.hints t ht)) fun _ s' hs' => ?_
    obtain ⟨hgood, files, hchanged, hhint, hdescs⟩ := hs'
    refine ⟨rfl, hchanged.fine h hgood hhint, ?_⟩
    have hafter : files.descs = (s.descs t).afterExec :=
      hdescs.trans (h.good.tables t ht).descs_closed
    rw [← hafter]
    exact hchanged.maps

theorem MapsNew.of_maps (hnew : MapsNew s d s₁)
    (hmaps : Maps s₁ s.tablesNr d' s₂) : MapsNew s d' s₂ := by
  refine ⟨hmaps.1.trans hnew.1, ?_⟩
  rw [hmaps.2, hnew.2, update_idem]

theorem doExecve_done {io : ExecIo} (h : Fine s) (ht : t < s.tablesNr) :
    wp (doExecve t io) (Done s t (.exec io)) E s := by
  have hfiles := h.good.tables t ht
  have hdone : ∀ {ret s'}, ExecEffect s t io ret s' → Fine s' → Done s t (.exec io) ret s' :=
    fun heffect hfine => .of_fine heffect hfine trivial
  unfold ExecEffect at hdone
  unfold doExecve
  by_cases hbefore : io.before < 0
  · simp only [if_pos hbefore] at hdone ⊢
    exact hdone ⟨rfl, maps_refl⟩ h
  · simp only [if_neg hbefore] at hdone ⊢
    refine wp_bind.2 (wp_bind.2 ((wp_tableAt ht).2 ?_))
    by_cases hshared : (s.tables t).refcount ≤ 1
    · simp only [if_pos hshared] at hdone ⊢
      refine wp_pure.2 (wp_post (fun ret s' hs' => ?_) (execBinary_spec h ht))
      exact hdone ⟨hs'.1, hs'.2.2⟩ hs'.2.1
    · simp only [if_neg hshared] at hdone ⊢
      refine wp_seq (dupFd_spec h.good ht) fun r s₁ ⟨hgood, hnone, hsome⟩ => ?_
      cases hmem : io.mem with
      | false =>
        obtain ⟨rfl, rfl⟩ := hnone hmem
        rw [hmem] at hdone
        exact hdone ⟨rfl, maps_refl⟩ h
      | true =>
        obtain ⟨rfl, hnr, htables⟩ := hsome hmem
        simp only [hmem, if_true] at hdone
        have ht₁ : t < s₁.tablesNr := by omega
        have hfine₁ := h.of_copy hgood hnr htables
        have hnew := mapsNew_of_copy hfiles hnr htables
        refine wp_bind.2 ((wp_tableAt ht₁).2 (wp_bind.2 (wp_modify.2 ?_)))
        -- the old table loses a user, or it is `init_files`
        generalize (s₁.tables t).refcount - (if t = initFiles then 0 else 1) = n
        have hchanged := setTable_changed (s := s₁) t { s₁.tables t with refcount := n }
        have hgood₂ := hgood.sameSlots ht₁ ((hgood.tables t ht₁).setRefcount n) rfl
        have hfine₂ := hchanged.fine hfine₁ hgood₂ (hfine₁.hints t ht₁)
        have hnew₂ : MapsNew s (s.descs t) (s₁.setTable t { s₁.tables t with refcount := n }) := by
          refine ⟨hnew.1, ?_⟩
          rw [hchanged.maps.2, ← hnew.2]
          exact update_eq_self ..
        have hlast : s.tablesNr < (s₁.setTable t { s₁.tables t with refcount := n }).tablesNr := by
          rw [hnew₂.1]
          exact lt_succ_self _
        refine wp_pure.2 (wp_post (fun ret s' hs' => ?_) (execBinary_spec hfine₂ hlast))
        obtain ⟨hret, hfine, hmaps⟩ := hs'
        refine hdone ⟨hret, hnew₂.of_maps ?_⟩ hfine
        rw [hnew₂.2, update_self] at hmaps
        exact hmaps

/-! ## Reading and writing -/

def OnlyLog (s s' : Sys) : Prop := ∃ log, s' = { s with log }

theorem OnlyLog.refl (s : Sys) : OnlyLog s s := ⟨s.log, rfl⟩

theorem OnlyLog.fine (h : OnlyLog s s') (hs : Fine s) : Fine s' := by
  obtain ⟨log, rfl⟩ := h
  exact ⟨⟨hs.good.tables, hs.good.counts, hs.good.live, hs.good.fresh⟩, hs.hints⟩

theorem OnlyLog.maps (h : OnlyLog s s') : Maps s t (s.descs t) s' := by
  obtain ⟨log, rfl⟩ := h
  exact maps_refl

theorem invoke_onlyLog {file : File} {op : Op} (hfile : s.files f = some file)
    (h : OnlyLog s s') : wp (invoke f op ret) (fun _ => OnlyLog s) E s' := by
  obtain ⟨log, rfl⟩ := h
  unfold wp
  rw [invoke_eq (s := { s with log }) hfile]
  cases file.fOp.has op with
  | false => exact ⟨_, rfl⟩
  | true => exact ⟨_, rfl⟩

/-- `sys_read` and `sys_write`, around their loops -/
theorem io_onlyLog {loop : Nat → F Int} (h : Fine s) (ht : t < s.tablesNr)
    (hloop : ∀ f file, s.files f = some file → wp (loop f) (fun _ s' => OnlyLog s s') E s) :
    wp (do
      if len = 0 then return 0
      else
        match ← sysFdget t n with
        | none => return -ebadf
        | some f =>
          let file ← fileAt f
          if hasFlag file.fFlags flag then return -eacces
          else if mem = false then return -enomem
          else loop f : F Int) (fun _ s' => OnlyLog s s') E s := by
  refine wp_ite (fun _ => .refl s) fun _ => wp_bind.2 ?_
  refine sysFdget_descs (h.good.tables t ht) ht (fun _ => .refl s) fun f hslot => ?_
  obtain ⟨file, hfile, -⟩ := h.good.file ht hslot.bound hslot.slot
  exact wp_of_bind_ok (fileAt_eq hfile) (wp_ite (fun _ => .refl s) fun _ => wp_ite (fun _ => .refl s)
    fun _ => hloop f file hfile)

/-! ## Runs -/

theorem Call.done (h : Fine s) (ht : t < s.tablesNr) (c : Call) :
    wp (c.run t) (Done s t c) (fun _ _ => ¬ Harmless s t c) s := by
  cases c with
  | «open» flags file => exact sysOpen_done h ht
  | close fd => exact sysClose_done h ht
  | dup oldfd => exact sysDup_done h ht
  | dup2 oldfd newfd => exact sysDup2_done h ht
  | fcntl fd cmd arg => exact sysFcntl_done h ht
  | pipe io => exact sysPipe_done h ht
  | fork cloneFiles mem => exact sysFork_done h ht
  | exec io => exact doExecve_done h ht
  | read fd len io =>
    refine wp_post (fun _ _ hs' => ?_) (io_onlyLog h ht fun _ _ hfile =>
      readLoop_rule (fun _ _ => invoke_onlyLog hfile) (.refl s))
    exact .of_fine ⟨_, rfl, hs'.maps⟩ (hs'.fine h) trivial
  | write fd len io =>
    refine wp_post (fun _ _ hs' => ?_) (io_onlyLog h ht fun _ _ hfile =>
      writeLoop_rule (fun _ _ => invoke_onlyLog hfile) (.refl s))
    exact .of_fine ⟨_, rfl, hs'.maps⟩ (hs'.fine h) trivial

theorem Sys.Correct.inOrder {calls : List (Nat × Call)} (h : s.Correct calls) : InOrder s := by
  cases calls with
  | nil => exact h
  | cons call calls => exact h.1

/-- **Descriptors.** In a run, each call does to the descriptors what it is for, with the lowest ones
allocated, if and only if no `dup2` goes outside of the tables and no `F_DUPFD` leaves closed descriptors
below its start. -/
theorem descriptors_correct_iff (h : Fine s) (calls : List (Nat × Call)) (htables : s.Meets HasTable calls) :
    s.Correct calls ↔ s.Meets Harmless calls := by
  induction calls generalizing s with
  | nil => exact iff_of_true h.inOrder trivial
  | cons call calls ih =>
    obtain ⟨t, c⟩ := call
    obtain ⟨ht, hrest⟩ := htables
    have hspec := c.done h ht
    unfold Sys.Correct Sys.Meets
    constructor
    · rintro ⟨-, ret, s', hrun, hideal, hcorrect⟩
      have hdone := wp_ok hspec hrun
      have hfine := fine_of_inOrder hdone.good hcorrect.inOrder
      refine ⟨hdone.right.1 ⟨hideal, hfine⟩, fun ret' s'' hrun' => ?_⟩
      rw [hrun] at hrun'
      cases hrun'
      exact (ih hfine (hrest ret s' hrun)).1 hcorrect
    · rintro ⟨hharmless, hmeets⟩
      cases hrun : c.run t s with
      | ok ret s' =>
        obtain ⟨hideal, hfine⟩ := (wp_ok hspec hrun).right.2 hharmless
        exact ⟨h.inOrder, ret, s', rfl, hideal, (ih hfine (hrest ret s' hrun)).2 (hmeets ret s' hrun)⟩
      | error e s' => exact absurd hharmless (wp_error hspec hrun)

/-! ## Two runs -/

theorem freshSys_fine : Fine freshSys where
  good :=
    { tables := fun t _ => ⟨fun _ => rfl, fun _ _ => rfl, nofun⟩
      counts := fun f => by simp [Sys.count, Sys.refs, FilesStruct.refs, freshSys, FilesStruct.init]
      live := nofun
      fresh := fun _ _ => rfl }
  hints := nofun

/-- What a call returns, if it does -/
def Call.returned (c : Call) (t : Nat) (s : Sys) : Option Int :=
  match c.run t s with
  | .ok ret _ => some ret
  | .error _ _ => none

theorem Call.returned_of_ok (h : c.run t s = .ok ret s') : c.returned t s = some ret := by
  rw [Call.returned, h]

/-- An `open` -/
def openFile : Nat × Call := (0, .open oRdonly (.ok regularFile))

/-- After an `open` and an `F_DUPFD` from 63 on, there is no descriptor for another `open`, although 62
are closed. After an `open`, a `dup2` to the descriptor 64 overruns the table. -/
theorem dupfd_hides_closed : Fine freshSys ∧
    ¬ freshSys.Correct [openFile, (0, .fcntl 0 0 63), openFile] ∧
    ¬ freshSys.Correct [openFile, (0, .dup2 0 64)] := by
  refine ⟨freshSys_fine, ?_, ?_⟩
  · rintro ⟨-, ret₁, s₁, hrun₁, -, -, ret₂, s₂, hrun₂, -, -, ret₃, s₃, hrun₃, ⟨d, hideal, -⟩, -⟩
    have hs₂ : freshSys.run [openFile, (0, .fcntl 0 0 63)] = s₂ := by
      simp only [Sys.run, openFile, hrun₁, hrun₂]
    have hfull : (Call.open oRdonly (.ok regularFile)).returned 0
        (freshSys.run [openFile, (0, .fcntl 0 0 63)]) = some (-emfile) := by
      decide +kernel
    have hclosed : ((freshSys.run [openFile, (0, .fcntl 0 0 63)]).tables 0).fd 1 = none := by
      decide +kernel
    rw [hs₂, Call.returned_of_ok hrun₃] at hfull
    rw [hs₂] at hclosed
    cases hfull
    generalize hret : -emfile = ret at hideal
    cases hideal with
    | lowest hlow =>
      change (-24 : Int) = _ at hret
      omega
    | full hall => exact hall 1 (Nat.zero_le _) (by decide) (descs_eq_none.2 hclosed)
  · rintro ⟨-, ret₁, s₁, hrun₁, -, -, ret₂, s₂, hrun₂, -⟩
    have hs₁ : freshSys.run [openFile] = s₁ := by
      simp only [Sys.run, openFile, hrun₁]
    have hcrash : (Call.dup2 0 64).returned 0 (freshSys.run [openFile]) = none := by decide +kernel
    rw [hs₁, Call.returned_of_ok hrun₂] at hcrash
    cases hcrash

/-- An `open`, and an `F_DUPFD` from the next descriptor on -/
theorem dupfd_next : freshSys.Correct [openFile, (0, .fcntl 0 0 1)] ↔
    freshSys.Meets Harmless [openFile, (0, .fcntl 0 0 1)] := by
  refine descriptors_correct_iff freshSys_fine _ ⟨Nat.one_pos, fun ret s' hrun => ⟨?_, fun _ _ _ => trivial⟩⟩
  have hnr : (freshSys.run [openFile]).tablesNr = 1 := by decide +kernel
  rw [openFile, Sys.run, hrun] at hnr
  show 0 < s'.tablesNr
  rw [show s'.tablesNr = 1 from hnr]
  exact Nat.one_pos

end ZzzOs.Fs.Fd
