import ZzzOs.Fs.Ext2.Alloc
import ZzzOs.Fs.Ext2.Dir.Map

/-!
# Insertions and deletions as updates of a map

With blocks of 4096 bytes, `ext2_add_entry` of a new name and `ext2_delete_entry` insert and erase
in the map that the directory is read as (`dir_follows_map_iff`).
-/

namespace ZzzOs.Fs.Ext2

open Function Nat Lib List

variable {G : Geometry} {d d' : Dir} {buf buf' : Bytes} {i ino mode o v n : Nat}
  {os l₁ l₂ os' : List Nat} {child name : List UInt8} {io : DirIo} {r : Int} {e : List UInt8 × Nat}

/-! ## Entries -/

theorem setPage_pageEntries (h : TiledBy buf' 0 (validBytes d.iSize i) os) :
    (d.setPage i buf').pageEntries i = live buf' os := by
  have h' : TiledBy ((d.setPage i buf').page i) 0 (validBytes (d.setPage i buf').iSize i) os := by
    rw [Dir.setPage_page_self]
    exact h
  rw [pageEntries_eq h', Dir.setPage_page_self]

theorem drop_live (hv : v ≤ pageSize) (h : TiledBy buf 0 v (l₁ ++ o :: l₂))
    (he : entryAt buf o = some e) :
    ∃ os, TiledBy (dropEntry buf l₁.getLast? o) 0 v os ∧
      (live buf (l₁ ++ o :: l₂)).Perm (e :: live (dropEntry buf l₁.getLast? o) os) := by
  rcases eq_nil_or_concat' l₁ with rfl | ⟨l, p, rfl⟩
  · -- the first entry of the page stays, but is no longer in use
    obtain ⟨htiled, hnone, hother⟩ := h.free mem_cons_self
    refine ⟨_, htiled, ?_⟩
    have hnot := (nodup_cons.1 h.tiles.nodup).1
    have hrest : live (dropEntry buf none o) l₂ = live buf l₂ := live_congr fun q hq =>
      hother q (mem_cons_of_mem o hq) fun hqo => hnot (hqo ▸ hq)
    rw [nil_append, live_cons_some he, List.getLast?_nil, live_cons_none hnone, hrest]
  · rw [List.getLast?_concat]
    rw [append_assoc, singleton_append] at h
    obtain ⟨htiled, hsame⟩ := h.drop hv
    refine ⟨_, htiled, ?_⟩
    have hjoin : l ++ p :: l₂ = (l ++ [p]) ++ l₂ := by simp
    have hnew : live buf (l ++ p :: l₂) = live buf (l ++ [p]) ++ live buf l₂ := by
      rw [hjoin, live_append]
    rw [live_congr hsame, hnew, live_append, live_cons_some he]
    exact perm_middle

theorem deleted_entries (hsize : d.iSize < 2 ^ 32) (hi : i * pageSize < d.iSize)
    (h : d.TiledAt i (l₁ ++ o :: l₂)) (he : entryAt (d.page i) o = some e) :
    d.entries.Perm ([e] ++ (d.setPage i (dropEntry (d.page i) l₁.getLast? o)).entries) := by
  obtain ⟨os, hos, hperm⟩ := drop_live validBytes_le h he
  refine entries_perm_append rfl ((lt_pageNr hsize).2 hi)
    (fun j hj => (Dir.setPage_page_of_ne hj).symm) ?_
  rw [pageEntries_eq h, setPage_pageEntries hos]
  exact hperm

theorem added_entries (hsize : d.iSize < 2 ^ 32) (hi : i * pageSize < d.iSize)
    (h : d.TiledAt i os) (hput : Put (d.page i) buf' (validBytes d.iSize i) os os' name ino) :
    (d.setPage i buf').entries.Perm ((newEntry name ino).toList ++ d.entries) := by
  refine entries_perm_append rfl ((lt_pageNr hsize).2 hi) (fun j hj => Dir.setPage_page_of_ne hj) ?_
  rw [pageEntries_eq h, setPage_pageEntries hput.tiled]
  exact hput.live

section Block

variable (h : d.Paged G)

theorem entries_eq (hsize : d.iSize < 2 ^ 32)
    (hos : TiledBy (d.page (d.iSize / pageSize)) 0 (d.iSize % pageSize) os) :
    d.entries = (List.range (d.iSize / pageSize)).flatMap d.pageEntries ++
      live (d.page (d.iSize / pageSize)) os := by
  rw [← validBytes_last] at hos
  rw [← pageEntries_eq hos]
  rcases Nat.eq_zero_or_pos (d.iSize % pageSize) with h0 | hpos
  · have hnil : os = [] := by
      have htiles := hos.tiles
      rw [validBytes_last, h0] at htiles
      exact htiles.unique rfl
    have hnr : pageNr d.iSize = d.iSize / pageSize := by
      unfold pageNr pageSize at *
      omega
    rw [Dir.entries, hnr, pageEntries_eq hos, hnil]
    exact (append_nil _).symm
  · have hnr : pageNr d.iSize = d.iSize / pageSize + 1 := by
      unfold pageNr pageSize at *
      omega
    rw [Dir.entries, hnr, range_succ, flatMap_append, flatMap_singleton]

include h

theorem withBlock_pageEntries (hi : i < d.iSize / pageSize) :
    (d.withBlock G name ino mode).pageEntries i = d.pageEntries i := by
  have hle : d.iSize ≤ (d.withBlock G name ino mode).iSize := by
    unfold Dir.withBlock
    dsimp only
    split <;> omega
  have hlt : i * pageSize < d.iSize + G.blockSize := by
    unfold pageSize at *
    omega
  obtain ⟨-, -, hvalid⟩ := page_before_last h hlt (Nat.ne_of_lt hi) hle
  rw [Dir.pageEntries, withBlock_page_of_ne (Nat.ne_of_lt hi), hvalid]
  rfl

theorem withBlock_lost (hfull : ¬ d.iSize + G.blockSize < 2 ^ 32) :
    (d.withBlock G name ino mode).entries = d.entries := by
  have hsame : (d.withBlock G name ino mode).iSize = d.iSize := if_neg hfull
  obtain ⟨os, hos, hentry, hos', -⟩ := withBlock_last ino mode name h
  rw [entries_eq h.size hos]
  rw [← hsame] at hos' ⊢
  rw [entries_eq (withBlock_size h).1 hos', live_congr (by rw [hsame]; exact hentry), hsame]
  rw [flatMap_congr fun i hi => withBlock_pageEntries h (mem_range.1 hi)]

theorem withBlock_entries (hroom : d.iSize + G.blockSize < 2 ^ 32) :
    (d.withBlock G name ino mode).entries = d.entries ++ (newEntry name ino).toList := by
  have hgrown : (d.withBlock G name ino mode).iSize = d.iSize + G.blockSize := if_pos hroom
  have hnr : pageNr (d.iSize + G.blockSize) = d.iSize / pageSize + 1 := by
    obtain ⟨m, hm⟩ := h.aligned
    unfold pageNr pageSize
    rcases G.blockSize_cases with hb | hb | hb <;> rw [hb] at hm hroom ⊢ <;> omega
  obtain ⟨os, hos, hentry, -, hos'⟩ := withBlock_last ino mode name h
  have hlast : (d.withBlock G name ino mode).pageEntries (d.iSize / pageSize) =
      live (d.page (d.iSize / pageSize)) os ++ (newEntry name ino).toList := by
    have hnew : TiledBy ((d.withBlock G name ino mode).page (d.iSize / pageSize)) 0
        (validBytes (d.withBlock G name ino mode).iSize (d.iSize / pageSize))
        (os ++ [d.iSize % pageSize]) := by
      rw [hgrown, validBytes_grown h]
      exact hos'
    rw [pageEntries_eq hnew, live_append, live_congr hentry, live_cons, withBlock_page_last,
      putInBlock, entryAt_init]
    simp [live]
  rw [entries_eq h.size hos, Dir.entries, hgrown, hnr, range_succ, flatMap_append,
    flatMap_singleton, hlast, append_assoc]
  rw [flatMap_congr fun i hi => withBlock_pageEntries h (mem_range.1 hi)]

end Block

/-! ## Steps -/

structure DirIo.Quiet (io : DirIo) : Prop where
  scan : ∀ i, ¬ io.scan i < 0
  get : ¬ io.get < 0
  write : ¬ io.write < 0
  inode : ¬ io.inode < 0

/-- An insertion is of a new name; names have 1 to 255 bytes. -/
def Proper (d : Dir) : DirOp → Prop
  | .add io name ino _ => io.Quiet ∧ (1 ≤ name.length ∧ name.length ≤ 255) ∧
      (0 < ino ∧ ino < 2 ^ 32) ∧ d.contents name = none
  | .delete io child => io.Quiet ∧ 1 ≤ child.length ∧ child.length ≤ 255

/-- An insertion does not need a new block, or there is none on the disk, or the directory is not as
large as it can be. -/
def HasRoom (d : Dir) : DirOp → Prop
  | .add io name _ _ => (∃ i < pageNr d.iSize, findSlotIn d name.length i ≠ some none) ∨
      io.map < 0 ∨ d.iSize + pageSize < 2 ^ 32
  | .delete .. => True

/-- The map after a call that has returned `r`. -/
def DirOp.effect (r : Int) (m : List UInt8 → Option Nat) : DirOp → List UInt8 → Option Nat
  | .add _ name ino _ => if r < 0 then m else update m name (some ino)
  | .delete _ child => update m child none

def DirOp.Returns (m : List UInt8 → Option Nat) (r : Int) : DirOp → Prop
  | .add io _ _ _ => r < 0 → io.map < 0
  | .delete _ child => r < 0 ↔ m child = none

/-- The calls return, and every directory on the way is read as the map that the calls before have
made of `m`. -/
def Dir.Follows (G : Geometry) (d : Dir) (m : List UInt8 → Option Nat) : List DirOp → Prop
  | [] => Reads d m
  | op :: ops => Reads d m ∧ ∃ r d', op.run G d = some (r, d') ∧ op.Returns m r ∧
      Dir.Follows G d' (op.effect r m) ops

theorem DirIo.Quiet.done (hq : io.Quiet) : ¬ (if io.write < 0 then io.write else io.inode) < 0 := by
  rw [if_neg hq.write]
  exact hq.inode

theorem contents_insert (h : d.Sound G) (hnew : d.contents name = none)
    (hperm : d'.entries.Perm ((name, ino) :: d.entries)) :
    d'.contents = update d.contents name (some ino) ∧ (d'.entries.map Prod.fst).Nodup := by
  have hname : name ∉ d.entries.map Prod.fst := lookup_eq_none.1 hnew
  exact ⟨lookup_insert h.names hname hperm,
    (hperm.map Prod.fst).nodup_iff.2 (nodup_cons.2 ⟨hname, h.names⟩)⟩

structure Stepped (G : Geometry) (d : Dir) (op : DirOp) (r : Int) (d' : Dir) : Prop where
  wellFormed : d'.WellFormed G
  returns : op.Returns d.contents r
  effect : HasRoom d op → d'.contents = op.effect r d.contents
  lost : ¬ HasRoom d op → ¬ r < 0 ∧ d'.contents = d.contents

section

variable (hbs : G.blockSize = pageSize) (h : d.WellFormed G)

include hbs h

theorem add_stepped (hp : Proper d (.add io name ino mode)) :
    ∃ r d', ext2AddEntry G io d name ino mode = some (r, d') ∧
      Stepped G d (.add io name ino mode) r d' := by
  obtain ⟨hq, ⟨-, hlen⟩, ⟨hpos, hlt⟩, hnew⟩ := hp
  obtain ⟨⟨r, d'⟩, heq, hadd⟩ := addEntry_cases h.sound.toPaged io name ino mode
  refine ⟨r, d', heq, ?_⟩
  have hentry : newEntry name ino = some (name, ino) := by
    rw [newEntry_eq hpos hlt, diskName_eq hlen]
  have htiled := hadd.tiled h.toTiled
  generalize hres : (r, d') = res at hadd
  cases hadd with
  | failed _ hfail =>
    rcases hfail with ⟨i, -, hfail, -⟩ | hfail
    · exact absurd hfail (hq.scan i)
    · exact absurd hfail hq.get
  | slot hi hslot _ _ hos hput =>
    cases hres
    have hr := hq.done
    have hperm := added_entries h.size hi hos hput
    rw [hentry] at hperm
    obtain ⟨hcont, hnames⟩ := contents_insert h.sound hnew hperm
    refine ⟨⟨htiled, hnames⟩, fun hneg => absurd hneg hr, fun _ => ?_, fun hroom => ?_⟩
    · rw [DirOp.effect, if_neg hr, hcont]
    · exact absurd (.inl ⟨_, (lt_pageNr h.size).2 hi, hslot⟩) hroom
  | block hnone =>
    rw [newBlock_eq h.sound.toPaged] at hres
    split at hres
    · rename_i hmap
      cases hres
      refine ⟨h, fun _ => hmap, fun _ => ?_, fun hroom => absurd (.inr (.inl hmap)) hroom⟩
      rw [DirOp.effect, if_pos hmap]
    · rename_i hmap
      rw [if_neg hq.get] at hres
      cases hres
      by_cases hsmall : d.iSize + pageSize < 2 ^ 32
      · have hperm : (d.withBlock G name ino mode).entries.Perm ((name, ino) :: d.entries) := by
          rw [withBlock_entries h.sound.toPaged (hbs ▸ hsmall), hentry]
          exact perm_append_singleton _ _
        obtain ⟨hcont, hnames⟩ := contents_insert h.sound hnew hperm
        refine ⟨⟨htiled, hnames⟩, fun hneg => absurd hneg hq.inode, fun _ => ?_, fun hroom => ?_⟩
        · rw [DirOp.effect, if_neg hq.inode, hcont]
        · exact absurd (.inr (.inr hsmall)) hroom
      · have hsame : (d.withBlock G name ino mode).entries = d.entries :=
          withBlock_lost h.sound.toPaged (hbs ▸ hsmall)
        refine ⟨⟨htiled, by rw [hsame]; exact h.names⟩, fun hneg => absurd hneg hq.inode,
          fun hroom => ?_, fun _ => ⟨hq.inode, by unfold Dir.contents; rw [hsame]⟩⟩
        rcases hroom with ⟨i, hi, hslot⟩ | hneg | hlt'
        · exact absurd (hnone i hi) hslot
        · exact absurd hneg hmap
        · exact absurd hlt' hsmall

theorem delete_stepped (hp : Proper d (.delete io child)) :
    ∃ r d', ext2DeleteEntry io d child = some (r, d') ∧ Stepped G d (.delete io child) r d' := by
  obtain ⟨hq, -⟩ := hp
  obtain ⟨⟨r, d'⟩, heq, hdel⟩ := deleteEntry_cases h.sound.toPaged io child
  refine ⟨r, d', heq, ?_⟩
  have hiff := hdel.tiled_iff h.toTiled
  generalize hres : (r, d') = res at hdel
  cases hdel with
  | absent hnone =>
    cases hres
    have hempty := contents_of_absent h.sound.toPaged hnone
    refine ⟨h, ⟨fun _ => hempty, fun _ => by decide⟩, fun _ => ?_, fun hroom => absurd trivial hroom⟩
    rw [DirOp.effect, ← hempty, update_eq_self]
  | failed hscan => exact absurd hscan (hq.scan _)
  | @found i o l₁ l₂ hi hos hm _ hfound =>
    cases hres
    have hperm := deleted_entries h.size hi hos (deMatches_iff.1 hm)
    have hmem := contents_of_found h.sound hfound
    -- a block is a page, and an entry at its start is the first of the page
    have hkeeps : KeepsBlocks G d (.delete io child) := by
      intro i' o' hfound' _ hdvd
      rw [hfound] at hfound'
      cases hfound'
      have hbounds := hos.tiles.bounds (o := o) (by simp)
      have hle : validBytes d.iSize i ≤ pageSize := validBytes_le
      exact eq_zero_of_dvd_of_lt hdvd (by omega)
    refine ⟨⟨hiff.2 hkeeps, ?_⟩, ?_, fun _ => lookup_erase h.names hperm,
      fun hroom => absurd trivial hroom⟩
    · exact (nodup_cons.1 ((hperm.map Prod.fst).nodup_iff.1 h.names)).2
    · exact iff_of_false hq.done (by rw [hmem]; exact Option.some_ne_none _)

theorem DirOp.stepped (op : DirOp) (hp : Proper d op) :
    ∃ r d', op.run G d = some (r, d') ∧ Stepped G d op r d' := by
  cases op with
  | add io name ino mode => exact add_stepped hbs h hp
  | delete io child => exact delete_stepped hbs h hp

end

theorem Stepped.hasRoom {op : DirOp} (hstep : Stepped G d op r d') (hproper : Proper d op)
    (hreads : Reads d' (op.effect r d.contents)) : HasRoom d op := by
  by_contra hroom
  obtain ⟨hr, hcont⟩ := hstep.lost hroom
  cases op with
  | delete => exact hroom trivial
  | add io name ino mode =>
    have hfind := hreads.find name
    rw [find_contents hstep.wellFormed.sound, hcont, hproper.2.2.2, DirOp.effect, if_neg hr,
      update_self] at hfind
    have hzero : 0 = ino := Option.some.inj hfind
    exact absurd hproper.2.2.1.1 (by omega)

theorem Dir.Follows.reads {m : List UInt8 → Option Nat} {ops : List DirOp}
    (h : d.Follows G m ops) : Reads d m := by
  cases ops with
  | nil => exact h
  | cons _ _ => exact h.1

/-- **Directories as maps.** From a well-formed directory with blocks of 4096 bytes, every sequence
of insertions of new names and of deletions follows the map of names to inode numbers if and only if
it never needs a page beyond the last one that a directory can have. -/
theorem dir_follows_map_iff (hbs : G.blockSize = pageSize) (h : d.WellFormed G) (ops : List DirOp)
    (hops : d.Meets G Proper ops) : d.Follows G d.contents ops ↔ d.Meets G HasRoom ops := by
  induction ops generalizing d with
  | nil => exact iff_of_true (reads_contents h.sound) trivial
  | cons op ops ih =>
    obtain ⟨hproper, hrest⟩ := hops
    obtain ⟨r, d', heq, hstep⟩ := op.stepped hbs h hproper
    have hrest' := hrest r d' heq
    constructor
    · rintro ⟨-, r₁, d₁, heq₁, -, hfollows⟩
      rw [heq] at heq₁
      cases heq₁
      have hroom := hstep.hasRoom hproper hfollows.reads
      refine ⟨hroom, fun r₂ d₂ heq₂ => ?_⟩
      rw [heq] at heq₂
      cases heq₂
      rw [← hstep.effect hroom] at hfollows
      exact (ih hstep.wellFormed hrest').1 hfollows
    · rintro ⟨hroom, hmeets⟩
      refine ⟨reads_contents h.sound, r, d', heq, hstep.returns, ?_⟩
      rw [← hstep.effect hroom]
      exact (ih hstep.wellFormed hrest').2 (hmeets r d' heq)

/-! ## A directory of 4 GiB -/

theorem quietIo_quiet : quietIo.Quiet := ⟨fun _ => Int.lt_irrefl 0, by decide, by decide, by decide⟩

def bigDisk : Geometry where
  blockSize := 4096
  firstDataBlock := 0
  blocksCount := 2097152
  blocksPerGroup := 32768
  inodesCount := 524288
  inodesPerGroup := 8192
  groupsCount := 64
  gdbCount := 1
  blockSize_cases := tiny.blockSize_cases
  firstDataBlock_le := tiny.firstDataBlock_le

/-- `.` and `..`, and an entry of 4060 bytes that is not in use behind a short one. -/
def dotPage : Bytes :=
  ext2InitDirEntry (ext2InitDirEntry (deSetRecLen (deSetRecLen (fun _ => 0) 24 12) 36 4060)
    0 2 0x41ed [46] 12) 12 2 0x41ed [46, 46] 12

def deadPage : Bytes := deSetRecLen (deSetRecLen (fun _ => 0) 0 12) 12 4084

def fullDir : Dir where
  iSize := 2 ^ 32 - 4096
  page i := if i = 0 then dotPage else deadPage

/-- A directory of one page. -/
def dotDir : Dir where
  iSize := 4096
  page _ := dotPage

theorem dotPage_tiled : TiledBy dotPage 0 4096 [0, 12, 24, 36] := by
  have hlen : deRecLen dotPage 0 = 12 ∧ deRecLen dotPage 12 = 12 ∧ deRecLen dotPage 24 = 12 ∧
      deRecLen dotPage 36 = 4060 := by decide +kernel
  have hgood : ∀ o ∈ [0, 12, 24, 36], ext2DirRecLen (deNameLen dotPage o) ≤ deRecLen dotPage o ∧
      4 ∣ deRecLen dotPage o := by decide +kernel
  refine ⟨?_, fun o ho => ⟨(hgood o ho).1, (hgood o ho).2⟩⟩
  simp [Tiles, hlen]

theorem deadPage_tiled : TiledBy deadPage 0 4096 [0, 12] := by
  have hlen : deRecLen deadPage 0 = 12 ∧ deRecLen deadPage 12 = 4084 := by decide +kernel
  have hgood : ∀ o ∈ [0, 12], ext2DirRecLen (deNameLen deadPage o) ≤ deRecLen deadPage o ∧
      4 ∣ deRecLen deadPage o := by decide +kernel
  refine ⟨?_, fun o ho => ⟨(hgood o ho).1, (hgood o ho).2⟩⟩
  simp [Tiles, hlen]

theorem findSlotIn_short (hsize : d.iSize < 2 ^ 32) (hi : i * pageSize < d.iSize)
    (h : d.TiledAt i (l₁ ++ o :: l₂))
    (hl₁ : ∀ q ∈ l₁, deInode (d.page i) q ≠ 0 ∧
      deRecLen (d.page i) q < ext2DirRecLen (deNameLen (d.page i) q) + ext2DirRecLen n)
    (h0 : deInode (d.page i) o = 0) (hshort : deRecLen (d.page i) o < ext2DirRecLen n) :
    findSlotIn d n i = some none := by
  unfold findSlotIn
  dsimp only
  rw [lastValidByte_eq hsize hi, scan_tiles h.tiles (decide_eq_false (by omega))
    (h.length_lt validBytes_le)]
  clear h
  induction l₁ with
  | nil =>
    rw [nil_append, takeWhile_cons]
    split
    · rw [visit, if_pos h0, if_pos hshort]
      rfl
    · rfl
  | cons q l₁ ih =>
    obtain ⟨hq0, hqlt⟩ := hl₁ q mem_cons_self
    rw [cons_append, takeWhile_cons]
    split
    · rw [visit, if_neg hq0, if_neg (Nat.not_le_of_lt hqlt)]
      exact ih fun p hp => hl₁ p (mem_cons_of_mem q hp)
    · rfl

theorem fullDir_valid (hi : i * pageSize < fullDir.iSize) : validBytes fullDir.iSize i = 4096 := by
  have hsize : fullDir.iSize = 2 ^ 32 - 4096 := rfl
  unfold validBytes pageSize at *
  omega

theorem fullDir_page (hi : i ≠ 0) : fullDir.page i = deadPage := if_neg hi

theorem fullDir_tiled : fullDir.Tiled bigDisk := by
  refine Dir.Tiled.of_pages (by decide) (by decide) fun i hi => ?_
  rw [fullDir_valid hi]
  have hstart : ∀ {os : List Nat}, 0 ∈ os → ∀ x, bigDisk.blockSize ∣ x → x < 4096 → x ∈ os :=
    fun hos x hx hlt => eq_zero_of_dvd_of_lt hx hlt ▸ hos
  by_cases h0 : i = 0
  · subst h0
    exact ⟨_, dotPage_tiled, hstart (by simp)⟩
  · rw [fullDir_page h0]
    exact ⟨_, deadPage_tiled, hstart (by simp)⟩

theorem fullDir_entries : fullDir.entries = [([46], 2), ([46, 46], 2)] := by
  have hnr : pageNr fullDir.iSize = 2 ^ 20 - 2 + 1 := by decide
  have hfirst : fullDir.pageEntries 0 = [([46], 2), ([46, 46], 2)] := by decide +kernel
  have hrest : ((List.range (2 ^ 20 - 2)).map Nat.succ).flatMap fullDir.pageEntries = [] := by
    refine flatMap_eq_nil_iff.2 fun i hi => ?_
    obtain ⟨j, hj, rfl⟩ := mem_map.1 hi
    have hj' := mem_range.1 hj
    have hsize : fullDir.iSize = 2 ^ 32 - 4096 := rfl
    have hlt : j.succ * pageSize < fullDir.iSize := by
      unfold pageSize
      omega
    have hpage : TiledBy (fullDir.page j.succ) 0 (validBytes fullDir.iSize j.succ) [0, 12] := by
      rw [fullDir_valid hlt, fullDir_page (succ_ne_zero j)]
      exact deadPage_tiled
    rw [pageEntries_eq hpage, fullDir_page (succ_ne_zero j)]
    decide +kernel
  rw [Dir.entries, hnr, range_succ_eq_map, flatMap_cons, hfirst, hrest, append_nil]

theorem fullDir_wellFormed : fullDir.WellFormed bigDisk :=
  ⟨fullDir_tiled, by rw [fullDir_entries]; decide⟩

/-- `hello` is added to the directory, and cannot be found. -/
theorem fullDir_add : fullDir.WellFormed bigDisk ∧
    fullDir.Meets bigDisk Proper [.add quietIo [104, 101, 108, 108, 111] 12 0x81a4] ∧
    ¬ fullDir.Follows bigDisk fullDir.contents [.add quietIo [104, 101, 108, 108, 111] 12 0x81a4] := by
  have hproper : Proper fullDir (.add quietIo [104, 101, 108, 108, 111] 12 0x81a4) := by
    refine ⟨quietIo_quiet, by decide, by decide, ?_⟩
    rw [Dir.contents, fullDir_entries]
    decide
  refine ⟨fullDir_wellFormed, ⟨hproper, fun _ _ _ => trivial⟩, ?_⟩
  rintro ⟨-, r, d', heq, -, hreads⟩
  obtain ⟨r₁, d₁, heq₁, hstep⟩ := DirOp.stepped rfl fullDir_wellFormed _ hproper
  rw [heq] at heq₁
  cases heq₁
  rcases hstep.hasRoom hproper hreads with ⟨i, hi, hslot⟩ | hmap | hsmall
  · refine hslot ?_
    have hi' := (lt_pageNr fullDir_tiled.size).1 hi
    have hvalid := fullDir_valid hi'
    by_cases h0 : i = 0
    · subst h0
      have htiled : TiledBy (fullDir.page 0) 0 (validBytes fullDir.iSize 0)
          ([0, 12] ++ 24 :: [36]) := by
        exact dotPage_tiled
      refine findSlotIn_short fullDir_tiled.size hi' htiled ?_ ?_ ?_ <;> decide +kernel
    · have htiled : TiledBy (fullDir.page i) 0 (validBytes fullDir.iSize i) ([] ++ 0 :: [12]) := by
        rw [hvalid, fullDir_page h0]
        exact deadPage_tiled
      refine findSlotIn_short fullDir_tiled.size hi' htiled (List.forall_mem_nil _) ?_ ?_ <;>
        rw [fullDir_page h0] <;> decide +kernel
  · exact absurd hmap (by decide)
  · exact absurd hsmall (by decide)

theorem dotDir_wellFormed : dotDir.WellFormed bigDisk := by
  have htiled : dotDir.Tiled bigDisk := by
    refine Dir.Tiled.of_pages (by decide) (by decide) fun i hi => ?_
    have hsize : dotDir.iSize = 4096 := rfl
    obtain rfl : i = 0 := by
      unfold pageSize at hi
      omega
    exact ⟨_, dotPage_tiled, fun x hx hlt => eq_zero_of_dvd_of_lt hx hlt ▸ (by simp)⟩
  exact ⟨htiled, by decide +kernel⟩

/-- The name `a` comes and goes. -/
theorem dotDir_follows_map :
    dotDir.Follows bigDisk dotDir.contents [.add quietIo [97] 12 0x81a4, .delete quietIo [97]] ↔
      dotDir.Meets bigDisk HasRoom [.add quietIo [97] 12 0x81a4, .delete quietIo [97]] :=
  dir_follows_map_iff rfl dotDir_wellFormed _
    ⟨⟨quietIo_quiet, by decide, by decide, by decide +kernel⟩,
      fun _ _ _ => ⟨⟨quietIo_quiet, by decide, by decide⟩, fun _ _ _ => trivial⟩⟩

end ZzzOs.Fs.Ext2
