import ZzzOs.Fs.Ext2.Dir.Blocks
import ZzzOs.Lib.Assoc
import ZzzOs.Lib.PtrTree

/-!
# A directory as a finite map

With blocks of 4096 bytes a directory is a finite map from names to inode numbers (`Dir.contents`), which
the searches read (`Reads`) and insertions and deletions update. The exception is an insertion that needs
the last page a directory can have: the new size is 0 as a `u32`, and the entry is lost.
-/

namespace ZzzOs.Fs.Ext2

open Nat Lib List

variable {G : Geometry} {d d' : Dir} {buf : Bytes} {a i ino mode n o v fuel : Nat} {os : List Nat}
  {child name : List UInt8} {io : DirIo}

/-! ## The map -/

/-- The places of the entries of a page. -/
def offsets (buf : Bytes) (v : Nat) : Nat → Nat → List Nat
  | 0, _ => []
  | fuel + 1, o => if o < v then o :: offsets buf v fuel (o + deRecLen buf o) else []

/-- In a page that is tiled the walk comes to all entries. -/
theorem offsets_eq (h : Tiles (deRecLen buf) a v os) (hfuel : os.length < fuel) :
    offsets buf v fuel a = os := by
  induction os generalizing a fuel with
  | nil =>
    obtain rfl : a = v := h
    cases fuel with
    | zero => rfl
    | succ fuel => exact if_neg (lt_irrefl a)
  | cons o os ih =>
    cases fuel with
    | zero => exact absurd hfuel (not_lt_zero _)
    | succ fuel =>
      obtain ⟨rfl, hpos, hrest⟩ := h
      have hle := hrest.le
      rw [offsets, if_pos (by omega), ih hrest (lt_of_succ_lt_succ hfuel)]

/-- The names and inode numbers in page `i`. -/
def Dir.pageEntries (d : Dir) (i : Nat) : List (List UInt8 × Nat) :=
  live (d.page i) (offsets (d.page i) (validBytes d.iSize i) pageFuel 0)

def Dir.entries (d : Dir) : List (List UInt8 × Nat) :=
  (List.range (pageNr d.iSize)).flatMap d.pageEntries

def Dir.contents (d : Dir) : List UInt8 → Option Nat := fun name => d.entries.lookup name

structure Dir.WellFormed (G : Geometry) (d : Dir) : Prop extends d.Tiled G where
  names : (d.entries.map Prod.fst).Nodup

structure Dir.Sound (G : Geometry) (d : Dir) : Prop extends d.Paged G where
  names : (d.entries.map Prod.fst).Nodup

theorem Dir.WellFormed.sound (h : d.WellFormed G) : d.Sound G := ⟨h.toTiled.paged, h.names⟩

theorem pageEntries_eq (h : d.TiledAt i os) :
    d.pageEntries i = live (d.page i) os := by
  rw [Dir.pageEntries, offsets_eq h.tiles (h.length_lt validBytes_le)]

/-- Names are unique, so the first entry of a name is the only one. -/
theorem contents_eq_some (h : d.Sound G) : d.contents name = some ino ↔ (name, ino) ∈ d.entries :=
  lookup_eq_some h.names

theorem contents_eq_none : d.contents name = none ↔ ∀ ino, (name, ino) ∉ d.entries := by
  rw [Dir.contents, lookup_eq_none]
  simp

/-- A change of one page shows in the entries of the directory. -/
theorem entries_perm_append {es : List (List UInt8 × Nat)} (hsize : d'.iSize = d.iSize)
    (hi : i < pageNr d.iSize) (hsame : ∀ j, j ≠ i → d'.page j = d.page j)
    (hone : (d'.pageEntries i).Perm (es ++ d.pageEntries i)) : d'.entries.Perm (es ++ d.entries) := by
  rw [Dir.entries, hsize]
  refine flatMap_perm_append nodup_range (mem_range.2 hi) (fun j _ hj => ?_) hone
  rw [Dir.pageEntries, hsame j hj, hsize]
  rfl

/-! ## Reading it -/

section Read

/-- The directory is read as the map `m`. -/
structure Reads (d : Dir) (m : List UInt8 → Option Nat) : Prop where
  find : ∀ name, ext2Find d name = some ((m name).getD 0)
  readdir : ∃ l, ext2Readdir d 0 = some (.ok l) ∧ (l.map Dirent.name).Nodup ∧
    ∀ name ino, (∃ e ∈ l, e.name = name ∧ e.ino = ino) ↔ m name = some ino
  isEmpty : ∃ r, ext2DirIsEmpty d = some r ∧
    (r = 1 ↔ ∀ name, m name ≠ none → name = [46] ∨ name = [46, 46])

variable {e : List UInt8 × Nat}

theorem mem_live : e ∈ live buf os ↔ ∃ o ∈ os, entryAt buf o = some e :=
  mem_filterMap

theorem entryAt_eq_some (h : entryAt buf o = some e) :
    deInode buf o ≠ 0 ∧ e = (deName buf o, deInode buf o) := by
  unfold entryAt at h
  split_ifs at h with h0
  exact ⟨h0, (Option.some.inj h).symm⟩

/-- `ext2_find_entry` misses no entry. -/
theorem contents_of_absent (h : d.Paged G) (hnone : ext2FindEntry d name = some none) :
    d.contents name = none := by
  rcases findEntry_cases h name with ⟨-, hnone⟩ | ⟨i, o, -, hsome, -⟩
  · refine contents_eq_none.2 fun ino hmem => ?_
    obtain ⟨i, hi, hlive⟩ := mem_flatMap.1 hmem
    have hi' := mem_range.1 hi
    obtain ⟨os, hos, ⟨hnot, -, -⟩ | ⟨l₁, o, l₂, -, -, hfind, -⟩⟩ := page_cases h hi' name
    · rw [pageEntries_eq hos, mem_live] at hlive
      obtain ⟨o, ho, he⟩ := hlive
      have hino : deInode (d.page i) o = ino := congrArg Prod.snd (entryAt_eq_some he).2.symm
      rw [← hino] at he
      exact absurd (deMatches_iff.2 he) (Bool.eq_false_iff.1 (hnot o ho))
    · rw [hnone i hi'] at hfind
      cases hfind
  · rw [hnone] at hsome
    cases hsome

theorem contents_of_found (h : d.Sound G) (hfound : ext2FindEntry d name = some (some (i, o))) :
    d.contents name = some (deInode (d.page i) o) := by
  rcases findEntry_cases h.toPaged name with ⟨hnone, -⟩ | ⟨i', o', hi, hsome, hfind, -⟩
  · rw [hnone] at hfound
    cases hfound
  · rw [hsome] at hfound
    cases hfound
    obtain ⟨os, hos, ⟨-, hnone, -⟩ | ⟨l₁, o', l₂, rfl, hm, hfind', -⟩⟩ :=
      page_cases h.toPaged hi name
    · rw [hnone] at hfind
      cases hfind
    · rw [hfind'] at hfind
      cases hfind
      refine (contents_eq_some h).2 (mem_flatMap.2 ⟨i, mem_range.2 hi, ?_⟩)
      rw [pageEntries_eq hos]
      exact mem_live.2 ⟨o, by simp, deMatches_iff.1 hm⟩

/-- `ext2_find` returns 0 for a name without entry. -/
theorem find_contents (h : d.Sound G) (name : List UInt8) :
    ext2Find d name = some ((d.contents name).getD 0) := by
  unfold ext2Find
  rcases findEntry_cases h.toPaged name with ⟨heq, -⟩ | ⟨i, o, -, heq, -⟩ <;> rw [heq]
  · rw [contents_of_absent h.toPaged heq]
    rfl
  · rw [contents_of_found h heq]
    rfl

/-- The entries of a page as `ext2_readdir` gives them to its actor. -/
def dirents (buf : Bytes) (os : List Nat) : List Dirent :=
  (os.filter fun o => decide (deInode buf o ≠ 0)).map (direntAt buf)

theorem dirents_live : (dirents buf os).map (fun e => (e.name, e.ino)) = live buf os := by
  induction os with
  | nil => rfl
  | cons o os ih =>
    unfold dirents live at *
    by_cases h0 : deInode buf o = 0
    · have hnone : entryAt buf o = none := if_pos h0
      rw [filter_cons_of_neg (by simpa using h0), filterMap_cons_none hnone, ih]
    · have hsome : entryAt buf o = some (deName buf o, deInode buf o) := if_neg h0
      rw [filter_cons_of_pos (by simpa using h0), filterMap_cons_some hsome, map_cons, map_cons, ih]
      rfl

/-- A page hands on its entries in their order. -/
theorem readdirIn_eq (hsize : d.iSize < 2 ^ 32) (hi : i * pageSize < d.iSize) (h : d.TiledAt i os)
    (acc : List Dirent) :
    readdirIn d i 0 acc = some (.ok (acc ++ dirents (d.page i) os)) := by
  have hfold : ∀ acc : List Dirent, os.foldl (fun acc off => if deInode (d.page i) off ≠ 0
      then acc ++ [direntAt (d.page i) off] else acc) acc = acc ++ dirents (d.page i) os := by
    clear h
    induction os with
    | nil => exact fun acc => (append_nil acc).symm
    | cons o os ih =>
      intro acc
      unfold dirents at *
      rw [foldl_cons, ih]
      by_cases h0 : deInode (d.page i) o = 0
      · rw [if_neg (by simpa using h0), filter_cons_of_neg (by simpa using h0)]
      · rw [if_pos h0, filter_cons_of_pos (by simpa using h0), map_cons,
          append_assoc, singleton_append]
  unfold readdirIn
  rw [scan_page hsize hi h, visit_ok fun o ho s => ?_, hfold]
  rw [if_neg (ne_of_gt (h.tiles.bounds ho).2.1)]

theorem foldPages_readdir (h : d.Paged G) (hn : i + n ≤ pageNr d.iSize) (acc : List Dirent) :
    ∃ l, foldPages (readdirIn d) n i 0 acc = some (.ok (acc ++ l)) ∧
      l.map (fun e => (e.name, e.ino)) = (List.range' i n).flatMap d.pageEntries := by
  induction n generalizing i acc with
  | zero => exact ⟨[], by rw [append_nil]; rfl, rfl⟩
  | succ n ih =>
    have hi := (lt_pageNr h.size).1 (show i < pageNr d.iSize by omega)
    obtain ⟨os, hos⟩ := h.page hi
    obtain ⟨l, heq, hl⟩ := ih (i := i + 1) (by omega) (acc ++ dirents (d.page i) os)
    refine ⟨dirents (d.page i) os ++ l, ?_, ?_⟩
    · rw [foldPages, readdirIn_eq h.size hi hos]
      dsimp only
      rw [heq, append_assoc]
    · rw [map_append, dirents_live, hl, range'_succ, flatMap_cons, pageEntries_eq hos]

/-- `ext2_readdir` from the beginning hands on all entries. -/
theorem readdir_entries (h : d.Paged G) :
    ∃ l, ext2Readdir d 0 = some (.ok l) ∧ l.map (fun e => (e.name, e.ino)) = d.entries := by
  obtain ⟨l, heq, hl⟩ := foldPages_readdir h (i := 0) (n := pageNr d.iSize) (by omega) []
  refine ⟨l, heq, ?_⟩
  rw [hl, Dir.entries, range_eq_range']

theorem isEmptyIn_eq (hsize : d.iSize < 2 ^ 32) (hi : i * pageSize < d.iSize) (h : d.TiledAt i os) :
    isEmptyIn d i =
      some (if ∃ e ∈ d.pageEntries i, isDotName e.1 = false then some 0 else none) := by
  have hstep : isEmptyIn d i = pageResult some (some (visit (fun (_ : Unit) off =>
      if decide (deInode (d.page i) off ≠ 0 ∧ isDotName (deName (d.page i) off) = false) then
        Except.error (0 : Int) else Except.ok ()) () os)) := by
    unfold isEmptyIn
    dsimp only
    rw [scan_page hsize hi h]
    congr 2
    refine visit_congr fun o ho s => ?_
    rw [if_neg (ne_of_gt (h.tiles.bounds ho).2.1)]
    simp
  have hiff : (∃ e ∈ d.pageEntries i, isDotName e.1 = false) ↔ ∃ o ∈ os,
      deInode (d.page i) o ≠ 0 ∧ isDotName (deName (d.page i) o) = false := by
    rw [pageEntries_eq h]
    constructor
    · rintro ⟨e, he, hdot⟩
      obtain ⟨o, ho, hentry⟩ := mem_live.1 he
      obtain ⟨h0, rfl⟩ := entryAt_eq_some hentry
      exact ⟨o, ho, h0, hdot⟩
    · rintro ⟨o, ho, h0, hdot⟩
      exact ⟨_, mem_live.2 ⟨o, ho, if_neg h0⟩, hdot⟩
  rw [hstep, visit_find fun _ => 0]
  cases hfind : os.find? fun off =>
      decide (deInode (d.page i) off ≠ 0 ∧ isDotName (deName (d.page i) off) = false) with
  | none =>
    rw [if_neg fun hex => ?_]
    · rfl
    · obtain ⟨o, ho, hP⟩ := hiff.1 hex
      exact List.find?_eq_none.1 hfind o ho (decide_eq_true hP)
  | some o =>
    have hP := List.find?_some hfind
    rw [if_pos (hiff.2 ⟨o, mem_of_find?_eq_some hfind, of_decide_eq_true hP⟩)]
    rfl

/-- A directory is empty if `.` and `..` are its only entries. -/
theorem isEmpty_entries (h : d.Paged G) : ext2DirIsEmpty d =
    some (if ∃ e ∈ d.entries, isDotName e.1 = false then 0 else 1) := by
  have hpage : ∀ i < pageNr d.iSize, isEmptyIn d i =
      some (if ∃ e ∈ d.pageEntries i, isDotName e.1 = false then some 0 else none) := by
    intro i hi
    have hi' := (lt_pageNr h.size).1 hi
    obtain ⟨os, hos⟩ := h.page hi'
    exact isEmptyIn_eq h.size hi' hos
  have hpages : ∀ j, 0 ≤ j → j < 0 + pageNr d.iSize → isEmptyIn d j ≠ none := by
    intro j _ hj
    rw [hpage j (by omega)]
    exact Option.some_ne_none _
  unfold ext2DirIsEmpty
  rcases scanPages_cases hpages with ⟨hall, heq⟩ | ⟨i, r, -, hi, -, hr, heq⟩ <;> rw [heq]
  · rw [if_neg]
    rintro ⟨e, he, hdot⟩
    obtain ⟨i, hi, he⟩ := mem_flatMap.1 he
    have hi' := mem_range.1 hi
    have hnone := hall i (zero_le i) (by omega)
    rw [hpage i hi', if_pos ⟨e, he, hdot⟩] at hnone
    cases hnone
  · rw [hpage i (by omega)] at hr
    split_ifs at hr with hex
    · obtain ⟨e, he, hdot⟩ := hex
      cases hr
      rw [if_pos ⟨e, mem_flatMap.2 ⟨i, mem_range.2 (by omega), he⟩, hdot⟩]
    · cases hr

theorem isDotName_iff : isDotName name = true ↔ name = [46] ∨ name = [46, 46] := by
  simp [isDotName]

theorem reads_contents (h : d.Sound G) : Reads d d.contents := by
  refine ⟨find_contents h, ?_, ?_⟩
  · obtain ⟨l, heq, hl⟩ := readdir_entries h.toPaged
    refine ⟨l, heq, ?_, fun name ino => ?_⟩
    · have hnames := h.names
      rw [← hl, map_map] at hnames
      exact hnames
    · rw [contents_eq_some h, ← hl, mem_map]
      simp
  · refine ⟨_, isEmpty_entries h.toPaged, ?_⟩
    constructor
    · intro hr name hname
      obtain ⟨ino, hino⟩ := Option.ne_none_iff_exists'.1 hname
      refine isDotName_iff.1 (Bool.of_not_eq_false fun hdot => ?_)
      rw [if_pos ⟨(name, ino), (contents_eq_some h).1 hino, hdot⟩] at hr
      cases hr
    · intro hall
      refine if_neg ?_
      rintro ⟨⟨name, ino⟩, he, hdot⟩
      have hname := hall name (by rw [(contents_eq_some h).2 he]; exact Option.some_ne_none _)
      rw [isDotName_iff.2 hname] at hdot
      cases hdot

end Read

end ZzzOs.Fs.Ext2
