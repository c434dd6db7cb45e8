import ZzzOs.Fs.Ext2.Dir.Walk

/-!
# Directories with arbitrary bytes

`ext2_find_entry` and `ext2_find_slot` keep the header and the name inside the valid bytes but do not
look at a `rec_len` of 0, `ext2_delete_entry`, `ext2_dir_is_empty` and `ext2_readdir` the other way
round; `records_iff` says for which bytes each of them does what it should.
-/

namespace ZzzOs.Fs.Ext2

open Nat Lib

/-! ## The calls -/

/-- The loop over the pages: `err` of an error of `ext2_get_page`, or what `f` does with the page. -/
def readPage {β : Type} (io : DirIo) (err : Int → β) (f : Nat → Option (Option β)) (i : Nat) :
    Option (Option β) :=
  if io.scan i < 0 then some (some (err (io.scan i))) else f i

def ext2FindEntryOn (io : DirIo) (d : Dir) (child : List UInt8) :
    Option (Option (Except Int (Nat × Nat))) :=
  scanPages (readPage io .error fun i => (findIn d child i).map (Option.map .ok))
    (pageNr d.iSize) 0

/-- `ext2_dir_is_empty`, also with pages that cannot be read. -/
def ext2DirIsEmptyOn (io : DirIo) (d : Dir) : Option Int :=
  match scanPages (readPage io id (isEmptyIn d)) (pageNr d.iSize) 0 with
  | none => none
  | some none => some 1
  | some (some ret) => some ret

/-- The loop of `ext2_readdir` over page `i` from `off` on. `actor i off` is what `ctx->actor` returns
for the entry at `off`. -/
def iterateIn (d : Dir) (actor : Nat → Nat → Int) (i off : Nat) : Option (Option Int) :=
  let buf := d.page i
  pageResult some <|
    scan (deRecLen buf) (fun off => decide (off < lastValidByte d.iSize i))
      (fun _ off =>
        if deRecLen buf off = 0 then .error (-eio)
        else if deInode buf off ≠ 0 ∧ actor i off < 0 then .error (actor i off)
        else .ok ())
      pageFuel () off

/-- `ext2_readdir` with any actor, and with pages that cannot be read. -/
def ext2ReaddirOn (io : DirIo) (d : Dir) (pos : Nat) (actor : Nat → Nat → Int) : Option Int :=
  let pos := pos % 2 ^ 32
  let startPage := pos / pageSize
  match scanPages (readPage io id fun i =>
      iterateIn d actor i (if i = startPage then pos % pageSize else 0))
    (pageNr d.iSize - startPage) startPage with
  | none => none
  | some none => some 0
  | some (some ret) => some ret

section Readable

variable {io : DirIo} {d : Dir} {pos : Nat} {β γ : Type}

theorem scanPages_map (f : Nat → Option (Option β)) (g : β → γ) (n i : Nat) :
    scanPages (fun i => (f i).map (Option.map g)) n i = (scanPages f n i).map (Option.map g) := by
  induction n generalizing i with
  | zero => rfl
  | succ n ih =>
    rw [scanPages, scanPages]
    rcases f i with _ | _ | r
    · rfl
    · exact ih (i + 1)
    · rfl

variable (hio : ∀ i, ¬io.scan i < 0)

include hio

theorem readPage_eq (err : Int → β) (f : Nat → Option (Option β)) :
    readPage io err f = f :=
  funext fun i => if_neg (hio i)

theorem ext2FindEntryOn_eq (child : List UInt8) :
    ext2FindEntryOn io d child = (ext2FindEntry d child).map (Option.map .ok) := by
  unfold ext2FindEntryOn ext2FindEntry
  rw [readPage_eq hio, scanPages_map]

theorem ext2DirIsEmptyOn_eq : ext2DirIsEmptyOn io d = ext2DirIsEmpty d := by
  rcases hx : scanPages (isEmptyIn d) (pageNr d.iSize) 0 with _ | _ | ret <;>
    simp only [ext2DirIsEmptyOn, ext2DirIsEmpty, readPage_eq hio, hx]

end Readable

inductive DirCall where
  | findEntry (child : List UInt8)
  | findSlot (nameLen : Nat)
  | deleteEntry (child : List UInt8)
  | dirIsEmpty
  | readdir (pos : Nat) (actor : Nat → Nat → Int)

variable {actor : Nat → Nat → Int}

namespace DirCall

/-- The call comes to an end. -/
def returns (io : DirIo) (d : Dir) : DirCall → Bool
  | .findEntry child => (ext2FindEntryOn io d child).isSome
  | .findSlot nameLen => (ext2FindSlot io d nameLen).isSome
  | .deleteEntry child => (ext2DeleteEntry io d child).isSome
  | .dirIsEmpty => (ext2DirIsEmptyOn io d).isSome
  | .readdir pos actor => (ext2ReaddirOn io d pos actor).isSome

/-- The condition of the loop over page `i`. -/
def more (d : Dir) (i o : Nat) : DirCall → Bool
  | .findEntry child =>
    decide (ext2DirRecLen child.length ≤ lastValidByte d.iSize i ∧
      o ≤ lastValidByte d.iSize i - ext2DirRecLen child.length)
  | .findSlot nameLen => decide (o + ext2DirRecLen nameLen ≤ lastValidByte d.iSize i)
  | _ => decide (o < lastValidByte d.iSize i)

def verdict (d : Dir) (i o : Nat) : DirCall → Verdict
  | .findEntry child => if deMatches (d.page i) o child then .stop else .go
  | .findSlot nameLen =>
    if deInode (d.page i) o = 0 then
      if deRecLen (d.page i) o < ext2DirRecLen nameLen then .leave else .stop
    else if ext2DirRecLen (deNameLen (d.page i) o) + ext2DirRecLen nameLen ≤ deRecLen (d.page i) o
      then .stop
    else .go
  | .deleteEntry child =>
    if deRecLen (d.page i) o = 0 then .stop
    else if deMatches (d.page i) o child then .stop
    else .go
  | .dirIsEmpty =>
    if deRecLen (d.page i) o = 0 then .stop
    else if deInode (d.page i) o ≠ 0 ∧ !isDotName (deName (d.page i) o) then .stop
    else .go
  | .readdir _ actor =>
    if deRecLen (d.page i) o = 0 then .stop
    else if deInode (d.page i) o ≠ 0 ∧ actor i o < 0 then .stop
    else .go

/-- `ctx->pos`, a `u32`; the other functions begin with the first page. -/
def pos : DirCall → Nat
  | .readdir pos _ => pos % 2 ^ 32
  | _ => 0

def walk (io : DirIo) (d : Dir) (c : DirCall) : Walk where
  first := c.pos / pageSize
  off := c.pos % pageSize
  count := pageNr d.iSize
  readable i := decide (¬io.scan i < 0)
  len i := deRecLen (d.page i)
  more i o := c.more d i o
  verdict i o := c.verdict d i o

variable {io : DirIo} {d : Dir} {c : DirCall} {child : List UInt8} {i o : Nat} {β γ : Type}

theorem lastValidByte_le : lastValidByte d.iSize i ≤ pageSize := by
  unfold lastValidByte
  dsimp only
  split <;> omega

theorem le_pageSize (h : c.more d i o = true) : o ≤ pageSize := by
  have hle := lastValidByte_le (d := d) (i := i)
  cases c with
  | findEntry | findSlot | deleteEntry | dirIsEmpty | readdir => have := of_decide_eq_true h; omega

/-- The walk of a call follows the loop over its pages if it follows the loop over each page. -/
theorem follows {err : Int → β} {f : Nat → Option (Option β)}
    (hpage : ∀ i, (c.walk io d).PageEnds i (f i)) : (c.walk io d).Follows (readPage io err f) where
  unreadable := fun {i} h => ⟨err (io.scan i), if_pos (not_not.1 (of_decide_eq_false h))⟩
  page := fun {i} _ h => by
    have heq : readPage io err f i = f i := if_neg (of_decide_eq_true h)
    rw [heq]
    exact hpage i

theorem start_eq_zero (h : c.pos = 0) : (c.walk io d).start i = 0 := by
  unfold Walk.start
  split
  · show c.pos % pageSize = 0
    rw [h, zero_mod]
  · rfl

theorem first_eq_zero (h : c.pos = 0) : (c.walk io d).first = 0 := by
  show c.pos / pageSize = 0
  rw [h, Nat.zero_div]

theorem start_readdir {pos : Nat} : ((readdir pos actor).walk io d).start i =
      if i = pos % 2 ^ 32 / pageSize then pos % 2 ^ 32 % pageSize else 0 := rfl

/-- The loop over a page that begins at its start. -/
theorem page_ends {σ α : Type} {g : α → Option β} {step : σ → Nat → Except α σ} {s : σ}
    (hpos : c.pos = 0) (hstep : ∀ s o, (c.verdict d i o).Agrees g (step s o)) :
    (c.walk io d).PageEnds i
      (pageResult g (scan (deRecLen (d.page i)) (c.more d i ·) step pageFuel s 0)) := by
  have hpage := Walk.page_cases (w := c.walk io d) g step hstep (fun o h => le_pageSize h) s
  rwa [start_eq_zero hpos] at hpage

section Page

variable (io d i)

theorem findEntry_page (child : List UInt8) :
    ((findEntry child).walk io d).PageEnds i (findIn d child i) := by
  unfold findIn
  dsimp only
  split <;> rename_i hlt
  · refine .inr (.inl ⟨rfl, _, .refl, fun hm => ?_⟩)
    exact absurd (of_decide_eq_true hm).1 (Nat.not_le.2 hlt)
  · have hmore : (fun off => decide (off ≤ lastValidByte d.iSize i - ext2DirRecLen child.length)) =
        ((findEntry child).more d i ·) := by
      funext off
      exact decide_eq_decide.2 (and_iff_right (Nat.le_of_not_lt hlt)).symm
    rw [hmore]
    refine page_ends rfl fun s o => ?_
    unfold verdict
    dsimp only
    split
    · exact ⟨o, (i, o), rfl, rfl⟩
    · exact ⟨(), rfl⟩

theorem findSlot_page (nameLen : Nat) :
    ((findSlot nameLen).walk io d).PageEnds i (findSlotIn d nameLen i) := by
  refine page_ends rfl fun s o => ?_
  unfold verdict
  dsimp only
  split
  · split
    · exact ⟨none, rfl, rfl⟩
    · exact ⟨_, _, rfl, rfl⟩
  · split
    · exact ⟨_, _, rfl, rfl⟩
    · exact ⟨(), rfl⟩

theorem deleteEntry_page (child : List UInt8) :
    ((deleteEntry child).walk io d).PageEnds i (deleteIn d child i) := by
  refine page_ends rfl fun s o => ?_
  unfold verdict
  dsimp only
  split
  · exact ⟨_, _, rfl, rfl⟩
  · split
    · exact ⟨_, _, rfl, rfl⟩
    · exact ⟨_, rfl⟩

theorem dirIsEmpty_page : (dirIsEmpty.walk io d).PageEnds i (isEmptyIn d i) := by
  refine page_ends rfl fun s o => ?_
  unfold verdict
  split
  · exact ⟨_, _, rfl, rfl⟩
  · split
    · exact ⟨_, _, rfl, rfl⟩
    · exact ⟨_, rfl⟩

theorem readdir_page (pos : Nat) (actor : Nat → Nat → Int) :
    ((readdir pos actor).walk io d).PageEnds i
      (iterateIn d actor i (((readdir pos actor).walk io d).start i)) := by
  refine Walk.page_cases _ _ (fun s o => ?_) (fun o h => le_pageSize (c := readdir pos actor) h) ()
  show ((readdir pos actor).verdict d i o).Agrees _ _
  unfold verdict
  dsimp only
  split
  · exact ⟨_, _, rfl, rfl⟩
  · split
    · exact ⟨_, _, rfl, rfl⟩
    · exact ⟨_, rfl⟩

end Page

theorem isSome_delete : (ext2DeleteEntry io d child).isSome = true ↔
    scanPages (readPage io .error (deleteIn d child)) (pageNr d.iSize) 0 ≠ none := by
  unfold ext2DeleteEntry readPage
  generalize scanPages _ _ _ = x
  rcases x with _ | _ | ret | ⟨i, prev, off⟩
  · simp
  · simp
  · simp
  · dsimp only
    split <;> simp

theorem isSome_dirIsEmpty : (ext2DirIsEmptyOn io d).isSome = true ↔
    scanPages (readPage io id (isEmptyIn d)) (pageNr d.iSize) 0 ≠ none := by
  unfold ext2DirIsEmptyOn
  generalize scanPages _ _ _ = x
  rcases x with _ | _ | ret <;> simp

theorem isSome_readdir {pos : Nat} : (ext2ReaddirOn io d pos actor).isSome = true ↔
      scanPages (readPage io id fun i =>
          iterateIn d actor i (((readdir pos actor).walk io d).start i))
        (pageNr d.iSize - pos % 2 ^ 32 / pageSize) (pos % 2 ^ 32 / pageSize) ≠ none := by
  unfold ext2ReaddirOn
  simp only [start_readdir]
  generalize scanPages _ _ _ = x
  rcases x with _ | _ | ret <;> simp

/-- **A call comes to an end if and only if its walk does not come to a record of length 0 that it
goes on from.** -/
theorem returns_iff : c.returns io d = true ↔
    ∀ i o, (c.walk io d).At i o → ¬(c.walk io d).Stuck i o := by
  cases c with
  | findEntry child =>
    have h : ((findEntry child).walk io d).Follows
        (readPage io Except.error fun i => (findIn d child i).map (Option.map Except.ok)) :=
      follows fun i => (findEntry_page io d i child).map Except.ok
    exact Option.isSome_iff_ne_none.trans (h.returns_iff_of_first (first_eq_zero rfl))
  | findSlot nameLen =>
    have h : ((findSlot nameLen).walk io d).Follows
        (readPage io Except.error fun i => (findSlotIn d nameLen i).map (Option.map Except.ok)) :=
      follows fun i => (findSlot_page io d i nameLen).map Except.ok
    exact Option.isSome_iff_ne_none.trans (h.returns_iff_of_first (first_eq_zero rfl))
  | deleteEntry child =>
    have h : ((deleteEntry child).walk io d).Follows (readPage io .error (deleteIn d child)) :=
      follows fun i => deleteEntry_page io d i child
    exact isSome_delete.trans (h.returns_iff_of_first (first_eq_zero rfl))
  | dirIsEmpty =>
    have h : (dirIsEmpty.walk io d).Follows (readPage io id (isEmptyIn d)) :=
      follows fun i => dirIsEmpty_page io d i
    exact isSome_dirIsEmpty.trans (h.returns_iff_of_first (first_eq_zero rfl))
  | readdir pos actor =>
    exact isSome_readdir.trans (follows fun i => readdir_page io d i pos actor).returns_iff

/-! ## What a call makes of a record -/

end DirCall

def ext2FtMax : Nat := 8

def RoomFor (buf : Bytes) (o : Nat) : Prop :=
  8 + (if deInode buf o = 0 then 0 else deNameLen buf o) ≤ deRecLen buf o

structure WellFormed (buf : Bytes) (v o : Nat) : Prop where
  size : RoomFor buf o
  fits : o + deRecLen buf o ≤ v

structure Walk.Before (w : Walk) (i p o : Nat) : Prop where
  here : w.At i p
  more : w.more i p = true
  goes : w.verdict i p = .go
  next : p + w.len i p = o

namespace DirCall

def slotFits (buf : Bytes) (o nameLen : Nat) : Prop :=
  (if deInode buf o = 0 then 0 else ext2DirRecLen (deNameLen buf o)) + ext2DirRecLen nameLen ≤
    deRecLen buf o

instance {buf : Bytes} {o nameLen : Nat} : Decidable (slotFits buf o nameLen) :=
  inferInstanceAs (Decidable (_ ≤ _))

def readsName (buf : Bytes) (o : Nat) : DirCall → Prop
  | .findEntry child => deInode buf o ≠ 0 ∧ deNameLen buf o = child.length
  | .findSlot _ => False
  | .deleteEntry child =>
    deRecLen buf o ≠ 0 ∧ deInode buf o ≠ 0 ∧ deNameLen buf o = child.length
  | .dirIsEmpty =>
    deRecLen buf o ≠ 0 ∧ deInode buf o ≠ 0 ∧ (deNameLen buf o = 1 ∨ deNameLen buf o = 2)
  | .readdir _ _ => deRecLen buf o ≠ 0 ∧ deInode buf o ≠ 0

def usesType (buf : Bytes) (o : Nat) : DirCall → Prop
  | .readdir _ _ => deRecLen buf o ≠ 0 ∧ deInode buf o ≠ 0
  | _ => False

/-- The call takes the record for an entry. -/
def takes (buf : Bytes) (o : Nat) : DirCall → Prop
  | .findEntry child => deMatches buf o child = true
  | .findSlot nameLen => slotFits buf o nameLen
  | .deleteEntry child => deRecLen buf o ≠ 0 ∧ deMatches buf o child = true
  | .dirIsEmpty => deRecLen buf o ≠ 0 ∧ deInode buf o ≠ 0 ∧ isDotName (deName buf o) = false
  | .readdir _ _ => deRecLen buf o ≠ 0 ∧ deInode buf o ≠ 0

def merges (buf : Bytes) (o : Nat) : DirCall → Prop
  | .deleteEntry child => deRecLen buf o ≠ 0 ∧ deMatches buf o child = true
  | _ => False

/-- What a call may do with the record at `o` of page `i`: its header, and its name if it is read, lie
inside the valid bytes, and a record that is taken for an entry, or is changed, is well formed. -/
structure Sound (io : DirIo) (d : Dir) (c : DirCall) (i o : Nat) : Prop where
  header : o + 8 ≤ validBytes d.iSize i
  name : c.readsName (d.page i) o → o + 8 + deNameLen (d.page i) o ≤ validBytes d.iSize i
  type : c.usesType (d.page i) o → deFileType (d.page i) o < ext2FtMax
  record : c.takes (d.page i) o → WellFormed (d.page i) (validBytes d.iSize i) o
  before : c.merges (d.page i) o → ∀ p, (c.walk io d).Before i p o →
    WellFormed (d.page i) (validBytes d.iSize i) p

def Sane (io : DirIo) (d : Dir) (c : DirCall) (i o : Nat) : Prop :=
  let buf := d.page i
  let v := validBytes d.iSize i
  match c with
  | .findEntry child =>
    if deMatches buf o child then 8 + child.length ≤ deRecLen buf o ∧ o + deRecLen buf o ≤ v
    else deRecLen buf o ≠ 0
  | .findSlot nameLen =>
    if slotFits buf o nameLen then o + deRecLen buf o ≤ v
    else deInode buf o ≠ 0 → deRecLen buf o ≠ 0
  | .deleteEntry child =>
    o + 8 ≤ v ∧ (deRecLen buf o ≠ 0 → deInode buf o ≠ 0 → deNameLen buf o = child.length →
      o + 8 + child.length ≤ v ∧
      (deMatches buf o child = true → 8 + child.length ≤ deRecLen buf o ∧ o + deRecLen buf o ≤ v ∧
        ∀ p, (walk io d (.deleteEntry child)).Before i p o → RoomFor buf p))
  | .dirIsEmpty =>
    o + 8 ≤ v ∧ (deRecLen buf o ≠ 0 → deInode buf o ≠ 0 →
      if isDotName (deName buf o) then o + 8 + deNameLen buf o ≤ v
      else 8 + deNameLen buf o ≤ deRecLen buf o ∧ o + deRecLen buf o ≤ v)
  | .readdir _ _ =>
    o + 8 ≤ v ∧ (deRecLen buf o ≠ 0 → deInode buf o ≠ 0 → deFileType buf o < ext2FtMax ∧
      8 + deNameLen buf o ≤ deRecLen buf o ∧ o + deRecLen buf o ≤ v)

variable {io : DirIo} {d : Dir} {c : DirCall} {child : List UInt8} {i o nameLen : Nat} {buf : Bytes}

theorem lt_count (h : (c.walk io d).At i o) : i < pageNr d.iSize := by
  induction h with
  | first hlt => exact hlt
  | next _ _ _ ih => exact ih
  | page _ _ hlt => exact hlt

theorem roomFor_of_used (h : deInode buf o ≠ 0) :
    RoomFor buf o ↔ 8 + deNameLen buf o ≤ deRecLen buf o := by
  unfold RoomFor
  rw [if_neg h]

theorem le_ext2DirRecLen (n : Nat) : 8 + n ≤ ext2DirRecLen n := by
  unfold ext2DirRecLen
  omega

theorem roomFor_of_slotFits (h : slotFits buf o nameLen) : RoomFor buf o := by
  have h8 := le_ext2DirRecLen nameLen
  have hn := le_ext2DirRecLen (deNameLen buf o)
  unfold slotFits at h
  unfold RoomFor
  split at h <;> split <;> omega

theorem used_of_matches (h : deMatches buf o child = true) :
    deInode buf o ≠ 0 ∧ deNameLen buf o = child.length := by
  unfold deMatches at h
  rw [Bool.and_eq_true, Bool.and_eq_true, bne_iff_ne, beq_iff_eq] at h
  exact h.1

theorem nameLen_of_dot (h : isDotName (deName buf o) = true) :
    deNameLen buf o = 1 ∨ deNameLen buf o = 2 := by
  have hlen : (deName buf o).length = deNameLen buf o := by simp [deName, deBytes]
  unfold isDotName at h
  rw [Bool.or_eq_true, beq_iff_eq, beq_iff_eq] at h
  rcases h with h | h
  · rw [h] at hlen
    exact .inl hlen.symm
  · rw [h] at hlen
    exact .inr hlen.symm

theorem verdict_findSlot (h : ¬slotFits (d.page i) o nameLen) :
    (findSlot nameLen).verdict d i o = if deInode (d.page i) o = 0 then .leave else .go := by
  unfold slotFits at h
  unfold verdict
  dsimp only
  split_ifs at h with h0
  · rw [if_pos h0, if_pos h0, if_pos (by omega)]
  · rw [if_neg h0, if_neg h0, if_neg h]

/-- A loop that looks at `rec_len` before anything else does not stay at a record. -/
theorem not_stuck (hv : deRecLen (d.page i) o = 0 → c.verdict d i o = .stop) :
    ¬(c.walk io d).Stuck i o := by
  rintro ⟨-, hgo, hzero⟩
  change c.verdict d i o = .go at hgo
  rw [hv hzero] at hgo
  cases hgo

theorem sound_deleteEntry :
    (deleteEntry child).Sound io d i o ∧ ¬((deleteEntry child).walk io d).Stuck i o ↔
      (deleteEntry child).Sane io d i o := by
  refine Iff.trans (and_iff_left (not_stuck fun h => if_pos h)) ?_
  constructor
  · intro hs
    refine ⟨hs.header, fun hlen hused hname => ⟨?_, fun hmatch => ?_⟩⟩
    · have hin := hs.name ⟨hlen, hused, hname⟩
      omega
    · have hw := hs.record ⟨hlen, hmatch⟩
      have hsize := (roomFor_of_used hused).1 hw.size
      exact ⟨by omega, hw.fits, fun p hp => (hs.before ⟨hlen, hmatch⟩ p hp).size⟩
  · rintro ⟨hheader, hrest⟩
    refine ⟨hheader, fun h => ?_, False.elim, fun h => ?_, fun h p hp => ?_⟩
    · have hin := (hrest h.1 h.2.1 h.2.2).1
      have hname : deNameLen (d.page i) o = child.length := h.2.2
      omega
    · obtain ⟨hused, hname⟩ := used_of_matches h.2
      obtain ⟨hsize, hfits, -⟩ := (hrest h.1 hused hname).2 h.2
      exact ⟨(roomFor_of_used hused).2 (by omega), hfits⟩
    · obtain ⟨hused, hname⟩ := used_of_matches h.2
      obtain ⟨hsize, hfits, hbefore⟩ := (hrest h.1 hused hname).2 h.2
      have hnext : p + deRecLen (d.page i) p = o := hp.next
      exact ⟨hbefore p hp, by omega⟩

theorem sound_dirIsEmpty :
    dirIsEmpty.Sound io d i o ∧ ¬(dirIsEmpty.walk io d).Stuck i o ↔ dirIsEmpty.Sane io d i o := by
  refine Iff.trans (and_iff_left (not_stuck fun h => if_pos h)) ?_
  constructor
  · intro hs
    refine ⟨hs.header, fun hlen hused => ?_⟩
    split <;> rename_i hdot
    · exact hs.name ⟨hlen, hused, nameLen_of_dot hdot⟩
    · have hw := hs.record ⟨hlen, hused, eq_false_of_ne_true hdot⟩
      exact ⟨(roomFor_of_used hused).1 hw.size, hw.fits⟩
  · rintro ⟨hheader, hrest⟩
    refine ⟨hheader, fun h => ?_, False.elim, fun h => ?_, False.elim⟩
    · have hcond := hrest h.1 h.2.1
      split at hcond
      · exact hcond
      · omega
    · have hcond := hrest h.1 h.2.1
      rw [if_neg (ne_true_of_eq_false h.2.2)] at hcond
      exact ⟨(roomFor_of_used h.2.1).2 hcond.1, hcond.2⟩

theorem sound_readdir {pos : Nat} :
    (readdir pos actor).Sound io d i o ∧ ¬((readdir pos actor).walk io d).Stuck i o ↔
      (readdir pos actor).Sane io d i o := by
  refine Iff.trans (and_iff_left (not_stuck fun h => if_pos h)) ?_
  constructor
  · intro hs
    refine ⟨hs.header, fun hlen hused => ?_⟩
    have hw := hs.record ⟨hlen, hused⟩
    exact ⟨hs.type ⟨hlen, hused⟩, (roomFor_of_used hused).1 hw.size, hw.fits⟩
  · rintro ⟨hheader, hrest⟩
    refine ⟨hheader, fun h => ?_, fun h => (hrest h.1 h.2).1, fun h => ?_, False.elim⟩
    · have hcond := (hrest h.1 h.2).2
      omega
    · have hcond := (hrest h.1 h.2).2
      exact ⟨(roomFor_of_used h.2).2 hcond.1, hcond.2⟩

section Record

variable (hvalid : lastValidByte d.iSize i = validBytes d.iSize i) (hm : c.more d i o = true)

include hvalid hm

theorem sound_findEntry (hc : c = findEntry child) :
    c.Sound io d i o ∧ ¬(c.walk io d).Stuck i o ↔ c.Sane io d i o := by
  subst hc
  have hlen := le_ext2DirRecLen child.length
  obtain ⟨hle, ho⟩ := of_decide_eq_true hm
  unfold Sane
  dsimp only
  by_cases hmatch : deMatches (d.page i) o child = true
  · obtain ⟨hused, hname⟩ := used_of_matches hmatch
    rw [if_pos hmatch]
    constructor
    · rintro ⟨hs, -⟩
      have hw := hs.record hmatch
      have hsize := (roomFor_of_used hused).1 hw.size
      exact ⟨by omega, hw.fits⟩
    · rintro ⟨hsize, hfits⟩
      refine ⟨⟨by omega, fun h => by omega, False.elim, fun _ => ⟨?_, hfits⟩, False.elim⟩, ?_⟩
      · exact (roomFor_of_used hused).2 (by omega)
      · rintro ⟨-, hgo, -⟩
        change (if deMatches (d.page i) o child then Verdict.stop else .go) = .go at hgo
        rw [if_pos hmatch] at hgo
        cases hgo
  · rw [if_neg hmatch]
    constructor
    · rintro ⟨-, hstuck⟩ hzero
      exact hstuck ⟨hm, if_neg hmatch, hzero⟩
    · intro hpos
      refine ⟨⟨by omega, fun h => ?_, False.elim, fun h => absurd h hmatch, False.elim⟩,
        fun h => hpos h.2.2⟩
      have hname : deNameLen (d.page i) o = child.length := h.2
      omega

theorem sound_findSlot (hc : c = findSlot nameLen) :
    c.Sound io d i o ∧ ¬(c.walk io d).Stuck i o ↔ c.Sane io d i o := by
  subst hc
  have hlen := le_ext2DirRecLen nameLen
  have ho : o + ext2DirRecLen nameLen ≤ lastValidByte d.iSize i := of_decide_eq_true hm
  unfold Sane
  dsimp only
  split <;> rename_i hfit
  · constructor
    · rintro ⟨hs, -⟩
      exact (hs.record hfit).fits
    · intro hfits
      refine ⟨⟨by omega, False.elim, False.elim, fun _ => ⟨roomFor_of_slotFits hfit, hfits⟩,
        False.elim⟩, fun hstuck => ?_⟩
      have hroom : 8 ≤ deRecLen (d.page i) o := le_of_add_right_le (roomFor_of_slotFits hfit)
      have hzero : deRecLen (d.page i) o = 0 := hstuck.2.2
      omega
  · have hverdict := verdict_findSlot hfit
    constructor
    · rintro ⟨-, hstuck⟩ hused hzero
      rw [if_neg hused] at hverdict
      exact hstuck ⟨hm, hverdict, hzero⟩
    · intro hpos
      refine ⟨⟨by omega, False.elim, False.elim, fun h => absurd h hfit, False.elim⟩,
        fun hstuck => hpos (fun h0 => ?_) hstuck.2.2⟩
      rw [if_pos h0] at hverdict
      have hgo : (findSlot nameLen).verdict d i o = .go := hstuck.2.1
      rw [hverdict] at hgo
      cases hgo

/-- One record: what the call makes of it is sound, and the loop leaves it. -/
theorem sound_iff : c.Sound io d i o ∧ ¬(c.walk io d).Stuck i o ↔ c.Sane io d i o := by
  cases hc : c with
  | findEntry child => exact hc ▸ sound_findEntry hvalid hm hc
  | findSlot nameLen => exact hc ▸ sound_findSlot hvalid hm hc
  | deleteEntry child => exact sound_deleteEntry
  | dirIsEmpty => exact sound_dirIsEmpty
  | readdir pos actor => exact sound_readdir

end Record

/-- **A call on a directory with any bytes.** It comes to an end and makes of every record it comes to
only what is sound, if and only if the records it comes to are sane. -/
theorem records_iff (io : DirIo) (d : Dir) (hsize : d.iSize < 2 ^ 32) (c : DirCall) :
    (c.returns io d = true ∧ ∀ i o, (c.walk io d).At i o → c.more d i o = true → c.Sound io d i o) ↔
    ∀ i o, (c.walk io d).At i o → c.more d i o = true → c.Sane io d i o := by
  have hvalid : ∀ i o, (c.walk io d).At i o → lastValidByte d.iSize i = validBytes d.iSize i :=
    fun i o hat => lastValidByte_eq hsize ((lt_pageNr hsize).1 (lt_count hat))
  rw [returns_iff]
  constructor
  · rintro ⟨hends, hsound⟩ i o hat hm
    exact (sound_iff (hvalid i o hat) hm).1 ⟨hsound i o hat hm, hends i o hat⟩
  · intro hsane
    refine ⟨fun i o hat hstuck => ?_, fun i o hat hm => ?_⟩
    · exact ((sound_iff (hvalid i o hat) hstuck.1).2 (hsane i o hat hstuck.1)).2 hstuck
    · exact ((sound_iff (hvalid i o hat) hm).2 (hsane i o hat hm)).1

/-! ## Directories -/

def readableIo : DirIo := { scan := fun _ => 0, map := 0, get := 0, write := 0, inode := 0 }

/-- One page of zeros. -/
def zeroDir : Dir := { iSize := 4096, page := fun _ _ => 0 }

/-- One record of 12 bytes whose name has 200 bytes and whose type is 99. -/
def strayDir : Dir :=
  { iSize := 12, page := fun _ => ofList [5, 0, 0, 0, 12, 0, 200, 99, 97, 0, 0, 0] }

/-- `ext2_find_entry` does not come to an end on a page of zeros, and `ext2_readdir` hands on a name
outside the directory with a type outside the table. -/
theorem malformed_records : (findEntry [97]).returns readableIo zeroDir = false ∧
    ((readdir 0 fun _ _ => 0).walk readableIo strayDir).At 0 0 ∧
    (readdir 0 fun _ _ => 0).more strayDir 0 0 = true ∧
    ¬(readdir 0 fun _ _ => 0).Sound readableIo strayDir 0 0 := by
  refine ⟨by decide +kernel, .first (by decide) (by decide), by decide, fun hs => ?_⟩
  have htype := hs.type ⟨by decide, by decide⟩
  exact absurd htype (by decide)

/-- Two records of 12 bytes, with the names `b` and `a`. -/
def twoRecords : Dir where
  iSize := 24
  page _ := ofList [5, 0, 0, 0, 12, 0, 1, 1, 98, 0, 0, 0, 6, 0, 0, 0, 12, 0, 1, 1, 97, 0, 0, 0]

theorem twoRecords_at (h : ((findEntry [97]).walk readableIo twoRecords).At i o) :
    i = 0 ∧ (o = 0 ∨ o = 12) := by
  induction h with
  | first => exact ⟨rfl, .inl rfl⟩
  | next _ _ hgo ih =>
    obtain ⟨rfl, rfl | rfl⟩ := ih
    · exact ⟨rfl, .inr rfl⟩
    · exact absurd hgo (by decide)
  | page _ _ hlt =>
    have hcount : ((findEntry [97]).walk readableIo twoRecords).count = 1 := by decide
    omega

theorem twoRecords_sound : (findEntry [97]).returns readableIo twoRecords = true ∧
    ∀ i o, ((findEntry [97]).walk readableIo twoRecords).At i o →
      (findEntry [97]).more twoRecords i o = true →
      (findEntry [97]).Sound readableIo twoRecords i o := by
  refine (records_iff readableIo twoRecords (by decide) (findEntry [97])).2 fun i o hat _ => ?_
  obtain ⟨rfl, rfl | rfl⟩ := twoRecords_at hat
  · unfold Sane
    decide
  · unfold Sane
    decide

end DirCall

end ZzzOs.Fs.Ext2
