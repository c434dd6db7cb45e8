import ZzzOs.Fs.Ext2.Dir.Search

/-!
# Updates of a well-formed directory

What `ext2_add_entry` and `ext2_delete_entry` do to the entries of a directory: one page gets an
entry or loses one, or the directory grows by a block, or a call below has failed.
-/

namespace ZzzOs.Fs.Ext2

open Function Option Lib List Nat

variable {G : Geometry} {d : Dir} {buf buf' : Bytes} {a b i ino k mode n o p v x j : Nat}
  {os os' l₁ l₂ : List Nat} {child : List UInt8} {io : DirIo}

def live (buf : Bytes) (os : List Nat) : List (List UInt8 × Nat) := os.filterMap (entryAt buf)

theorem live_append : live buf (l₁ ++ l₂) = live buf l₁ ++ live buf l₂ := filterMap_append

theorem live_congr (h : ∀ q ∈ os, entryAt buf' q = entryAt buf q) : live buf' os = live buf os :=
  filterMap_congr h

theorem live_cons : live buf (o :: os) = (entryAt buf o).toList ++ live buf os := by
  unfold live
  rw [filterMap_cons]
  cases entryAt buf o <;> rfl

theorem live_cons_some {e : List UInt8 × Nat} (h : entryAt buf o = some e) :
    live buf (o :: os) = e :: live buf os := filterMap_cons_some h

theorem live_cons_none (h : entryAt buf o = none) : live buf (o :: os) = live buf os :=
  filterMap_cons_none h

/-! ## One page -/

@[simp] theorem Dir.setPage_iSize : (d.setPage i buf).iSize = d.iSize := rfl

@[simp] theorem Dir.setPage_page_self : (d.setPage i buf).page i = buf := by
  exact Function.update_self ..

theorem Dir.setPage_page_of_ne (h : j ≠ i) : (d.setPage i buf).page j = d.page j := by
  exact Function.update_of_ne h ..

theorem PageTiled.setPage (h : d.Tiled G)
    (hpage : PageTiled G buf' (validBytes d.iSize i) os') : (d.setPage i buf').Tiled G := by
  refine Dir.Tiled.of_pages h.size h.aligned fun j hj => ?_
  by_cases hji : j = i
  · subst hji
    refine ⟨os', ?_⟩
    rw [Dir.setPage_page_self]
    exact hpage
  · obtain ⟨os, hos⟩ := h.page hj
    refine ⟨os, ?_⟩
    rw [Dir.setPage_page_of_ne hji]
    exact hos

structure Put (buf buf' : Bytes) (v : Nat) (os os' : List Nat) (child : List UInt8) (ino : Nat) :
    Prop where
  tiled : TiledBy buf' 0 v os'
  subset : os ⊆ os'
  live : (live buf' os').Perm ((newEntry child ino).toList ++ live buf os)

theorem put_free (h : TiledBy buf 0 v os) (hv : v ≤ pageSize) (ho : o ∈ os)
    (hfree : deInode buf o = 0)
    (hfit : ext2DirRecLen child.length ≤ deRecLen buf o) :
    Put buf (putInSlot buf child ino mode ⟨i, o, 0, 0, deRecLen buf o⟩) v os os child ino := by
  have hput : putInSlot buf child ino mode ⟨i, o, 0, 0, deRecLen buf o⟩ =
      ext2InitDirEntry buf o ino mode child (deRecLen buf o) := by
    rw [putInSlot, if_neg (by simp)]
  rw [hput]
  obtain ⟨htiled, hother⟩ := h.take ino mode ho hv hfit
  refine ⟨htiled, List.Subset.refl os, ?_⟩
  have hnodup := h.tiles.nodup
  obtain ⟨l₁, l₂, rfl⟩ := append_of_mem ho
  rw [nodup_middle, nodup_cons] at hnodup
  have hnone : entryAt buf o = none := if_pos hfree
  have hsame : ∀ {l : List Nat}, (∀ q ∈ l, q ∈ l₁ ++ l₂) →
      Ext2.live (ext2InitDirEntry buf o ino mode child (deRecLen buf o)) l = Ext2.live buf l := by
    intro l hl
    refine live_congr fun q hq => hother q ?_ ?_
    · rcases mem_append.1 (hl q hq) with hq | hq <;> simp [hq]
    · rintro rfl
      exact hnodup.1 (hl q hq)
  rw [live_append, live_cons, entryAt_init, live_append, live_cons_none hnone,
    hsame fun q hq => mem_append_left _ hq, hsame fun q hq => mem_append_right _ hq]
  exact perm_append_comm_assoc _ _ _

variable (i ino mode) in
theorem put_split (h : TiledBy buf 0 v os) (hv : v ≤ pageSize) (hp : p ∈ os)
    (hfit : ext2DirRecLen (deNameLen buf p) + ext2DirRecLen child.length ≤ deRecLen buf p) :
    ∃ os', Put buf (putInSlot buf child ino mode ⟨i, p + ext2DirRecLen (deNameLen buf p), p,
      ext2DirRecLen (deNameLen buf p), deRecLen buf p - ext2DirRecLen (deNameLen buf p)⟩)
      v os os' child ino := by
  have hle := le_recLen (deNameLen buf p)
  have hput : putInSlot buf child ino mode ⟨i, p + ext2DirRecLen (deNameLen buf p), p,
      ext2DirRecLen (deNameLen buf p), deRecLen buf p - ext2DirRecLen (deNameLen buf p)⟩ =
      ext2InitDirEntry (deSetRecLen buf p (ext2DirRecLen (deNameLen buf p)))
        (p + ext2DirRecLen (deNameLen buf p)) ino mode child
        (deRecLen buf p - ext2DirRecLen (deNameLen buf p)) := by
    rw [putInSlot, if_pos (.inr (show ext2DirRecLen (deNameLen buf p) ≠ 0 by omega))]
  rw [hput]
  obtain ⟨l₁, l₂, rfl⟩ := append_of_mem hp
  obtain ⟨htiled, hother⟩ := h.split ino mode hv hfit
  refine ⟨_, htiled, fun q hq => ?_, ?_⟩
  · simp only [mem_append, mem_cons] at hq ⊢
    tauto
  · generalize hr : ext2DirRecLen (deNameLen buf p) = r at hother ⊢
    have hsplit : l₁ ++ p :: (p + r) :: l₂ = (l₁ ++ [p]) ++ (p + r) :: l₂ := by simp
    have hjoin : l₁ ++ p :: l₂ = (l₁ ++ [p]) ++ l₂ := by simp
    rw [hjoin] at hother
    have hleft := live_congr fun q hq => hother q (mem_append_left _ hq)
    have hright := live_congr fun q hq => hother q (mem_append_right _ hq)
    have hold : Ext2.live buf (l₁ ++ p :: l₂) = Ext2.live buf (l₁ ++ [p]) ++ Ext2.live buf l₂ := by
      rw [hjoin, live_append]
    rw [hsplit, live_append, live_cons, entryAt_init, hleft, hright, hold]
    exact perm_append_comm_assoc _ _ _

/-! ## Insertion -/

section Add

variable (h : d.Paged G)

include h in
theorem findSlotIn_ne_none (hi : i < pageNr d.iSize) : findSlotIn d n i ≠ none := by
  have hi' := (lt_pageNr h.size).1 hi
  obtain ⟨os, hos⟩ := h.page hi'
  rcases findSlotIn_cases h.size hi' hos n with heq | ⟨o, -, -, -, heq⟩ | ⟨p, -, -, -, heq⟩ <;>
    rw [heq] <;> exact some_ne_none _

def SlotUnread (io : DirIo) (d : Dir) (child : List UInt8) : Prop :=
  ∃ i < pageNr d.iSize, io.scan i < 0 ∧ ∀ j < i, findSlotIn d child.length j = some none

/-- No page has a slot for the name. -/
def Dir.Full (d : Dir) (child : List UInt8) : Prop :=
  ∀ i < pageNr d.iSize, findSlotIn d child.length i = some none

/-- What becomes of a directory when the entry goes into a slot, a new block, or nowhere. -/
inductive Added (G : Geometry) (io : DirIo) (d : Dir) (child : List UInt8) (ino mode : Nat) :
    Int × Dir → Prop
  /-- A page could not be read. -/
  | failed {r : Int} : r < 0 → SlotUnread io d child ∨ io.get < 0 → Added G io d child ino mode (r, d)
  | slot {i : Nat} {os os' : List Nat} {buf : Bytes} : i * pageSize < d.iSize →
      findSlotIn d child.length i ≠ some none → ¬ SlotUnread io d child → ¬ io.get < 0 →
      d.TiledAt i os → Put (d.page i) buf (validBytes d.iSize i) os os' child ino →
      Added G io d child ino mode
        (if io.write < 0 then io.write else io.inode, d.setPage i buf)
  | block : d.Full child → ¬ SlotUnread io d child →
      Added G io d child ino mode (ext2AddEntryNewBlock G io d child ino mode)

include h in
theorem addEntry_cases (io : DirIo) (child : List UInt8) (ino mode : Nat) :
    ∃ res, ext2AddEntry G io d child ino mode = some res ∧ Added G io d child ino mode res := by
  have hpages : ∀ j, 0 ≤ j → j < 0 + pageNr d.iSize →
      (if io.scan j < 0 then some (some (Except.error (io.scan j)))
        else (findSlotIn d child.length j).map (Option.map Except.ok)) ≠ none := by
    intro j _ hj heq
    split_ifs at heq
    exact findSlotIn_ne_none h (by omega) (map_eq_none_iff.1 heq)
  -- a page that was passed could be read and has no slot
  have hpassed : ∀ {j}, (if io.scan j < 0 then some (some (Except.error (io.scan j)))
      else (findSlotIn d child.length j).map (Option.map Except.ok)) = some none →
      ¬ io.scan j < 0 ∧ findSlotIn d child.length j = some none := by
    intro j hj
    split_ifs at hj with hscan
    · cases hj
    · obtain ⟨res, hres, hmap⟩ := map_eq_some_iff.1 hj
      rw [hres, map_eq_none_iff.1 hmap]
      exact ⟨hscan, rfl⟩
  rw [ext2AddEntry, ext2FindSlot]
  rcases scanPages_cases hpages with ⟨hall, heq⟩ | ⟨i, r, -, hi, hbefore, hr, heq⟩
  · rw [heq]
    refine ⟨_, rfl, Added.block (fun i hi => (hpassed (hall i (zero_le i) (by omega))).2) ?_⟩
    rintro ⟨i, hi, hneg, -⟩
    exact (hpassed (hall i (zero_le i) (by omega))).1 hneg
  · rw [heq]
    have hbefore : ∀ j < i, ¬ io.scan j < 0 ∧ findSlotIn d child.length j = some none :=
      fun j hj => hpassed (hbefore j (zero_le j) hj)
    have hi₀ : i < pageNr d.iSize := by omega
    split at hr
    · rename_i hneg
      cases hr
      exact ⟨_, rfl, Added.failed hneg (.inl ⟨i, hi₀, hneg, fun j hj => (hbefore j hj).2⟩)⟩
    · rename_i hscan
      obtain ⟨res, hres, hmap⟩ := map_eq_some_iff.1 hr
      obtain ⟨slot, rfl, rfl⟩ := map_eq_some_iff.1 hmap
      refine ⟨_, rfl, ?_⟩
      rw [ext2AddEntryToSlot]
      split
      · rename_i hneg
        exact Added.failed hneg (.inr hneg)
      · rename_i hget
        have hread : ¬ SlotUnread io d child := by
          rintro ⟨j, -, hneg, hnone⟩
          rcases lt_trichotomy j i with hj | rfl | hj
          · exact (hbefore j hj).1 hneg
          · exact hscan hneg
          · rw [hnone i hj] at hres
            cases hres
        have hi' := (lt_pageNr h.size).1 hi₀
        obtain ⟨os, hos⟩ := h.page hi'
        have hadd : ∀ {os' buf}, Put (d.page i) buf (validBytes d.iSize i) os os' child ino →
            putInSlot (d.page i) child ino mode slot = buf → slot.pageIndex = i →
            Added G io d child ino mode (if io.write < 0
              then (io.write, d.setPage slot.pageIndex
                (putInSlot (d.page slot.pageIndex) child ino mode slot))
              else (io.inode, d.setPage slot.pageIndex
                (putInSlot (d.page slot.pageIndex) child ino mode slot))) := by
          intro os' buf hput hbuf hpi
          rw [hpi, hbuf, ← apply_ite (fun r => (r, d.setPage i buf))]
          exact Added.slot hi' (by rw [hres]; simp) hread hget hos hput
        rcases findSlotIn_cases h.size hi' hos child.length with
          hcase | ⟨o, ho, hfree, hfit, hcase⟩ | ⟨p, hp, -, hfit, hcase⟩ <;>
          rw [hcase] at hres <;> cases hres
        · exact hadd (put_free hos validBytes_le ho hfree hfit) rfl rfl
        · obtain ⟨os', hput⟩ := put_split i ino mode hos validBytes_le hp hfit
          exact hadd hput rfl rfl

end Add

/-! ## A new block -/

/-- The directory with one more block, whose only entry is the new one. The new size is a `u32`, and
it is not stored when it is 0. -/
def Dir.withBlock (G : Geometry) (d : Dir) (child : List UInt8) (ino mode : Nat) : Dir where
  iSize := if d.iSize + G.blockSize < 2 ^ 32 then d.iSize + G.blockSize else d.iSize
  page := (d.setPage (d.iSize / pageSize) (putInBlock G (d.page (d.iSize / pageSize))
    (d.iSize % pageSize) child ino mode)).page

section Block

variable (h : d.Paged G)

include h in
theorem newBlock_eq : ext2AddEntryNewBlock G io d child ino mode =
    if io.map < 0 then (io.map, d) else if io.get < 0 then (io.get, d)
    else (io.inode, d.withBlock G child ino mode) := by
  have hpos := G.blockSize_pos
  have hsize := h.size
  obtain ⟨n, hn⟩ := h.aligned
  have hfile : (d.iSize + G.blockSize - 1) / G.blockSize = n := by
    rw [hn, Nat.add_sub_assoc hpos, Nat.mul_add_div hpos, Nat.div_eq_of_lt (by omega), Nat.add_zero]
  have hle : n ≤ d.iSize := hn ▸ Nat.le_mul_of_pos_left n hpos
  unfold ext2AddEntryNewBlock
  rw [hfile, mod_eq_of_lt (show n < 2 ^ 32 by omega)]
  dsimp only
  rw [succ_mul, mul_comm n, ← hn, mod_eq_of_lt h.size]
  congr 2
  unfold Dir.withBlock
  by_cases hlt : d.iSize + G.blockSize < 2 ^ 32
  · rw [if_pos hlt, mod_eq_of_lt hlt, if_pos (by rw [Dir.setPage_iSize]; omega)]
  · have hend : (d.iSize + G.blockSize) % 2 ^ 32 = 0 := by
      rcases G.blockSize_cases with hb | hb | hb <;> rw [hb] at hn hlt ⊢ <;> omega
    rw [if_neg hlt, hend, if_neg (not_lt_zero _)]
    rfl

theorem putInBlock_tiled : TiledBy (putInBlock G buf o child ino mode) o (o + G.blockSize) [o] := by
  have hcases := G.blockSize_cases
  have hlen : deRecLen (putInBlock G buf o child ino mode) o = G.blockSize := by
    rw [putInBlock, init_recLen, mod_eq_of_lt (by omega)]
  refine ⟨⟨rfl, by rw [hlen]; omega, by rw [hlen]; rfl⟩, fun q hq => ?_⟩
  obtain rfl := mem_singleton.1 hq
  have hle := recLen_le (child.length % 256)
  exact good_init (by omega) (by omega) (by omega)

variable (G buf child ino mode) in
theorem putInBlock_before (hx : x < o) : putInBlock G buf o child ino mode x = buf x := by
  rw [putInBlock, frame_init x (.inl hx), frame_write _ _ x (.inl hx)]

theorem validBytes_last : validBytes d.iSize (d.iSize / pageSize) = d.iSize % pageSize := by
  unfold validBytes pageSize
  omega

include h in
theorem validBytes_grown : validBytes (d.iSize + G.blockSize) (d.iSize / pageSize) =
    d.iSize % pageSize + G.blockSize := by
  obtain ⟨m, hm⟩ := h.aligned
  unfold validBytes pageSize
  rcases G.blockSize_cases with hb | hb | hb <;> rw [hb] at hm ⊢ <;> omega

include h in
theorem lastPage_tiled : ∃ os, TiledBy (d.page (d.iSize / pageSize)) 0 (d.iSize % pageSize) os := by
  have hsplit := div_add_mod' d.iSize pageSize
  rcases Nat.eq_zero_or_pos (d.iSize % pageSize) with h0 | hpos
  · rw [h0]
    exact ⟨[], rfl, nofun⟩
  · obtain ⟨os, hos⟩ := h.page (show d.iSize / pageSize * pageSize < d.iSize by omega)
    exact ⟨os, validBytes_last ▸ hos⟩

theorem TiledBy.below (hos : TiledBy buf a b os) (hsame : ∀ y < b, buf' y = buf y) :
    ∀ q ∈ os, SameEntry buf buf' q := by
  intro q hq y _ hy
  have hbounds := (hos.tiles.bounds hq).2.2
  have hname := (hos.good q hq).name_le
  exact hsame y (by omega)

theorem withBlock_page_of_ne (hj : j ≠ d.iSize / pageSize) :
    (d.withBlock G child ino mode).page j = d.page j := Dir.setPage_page_of_ne hj

theorem withBlock_page_last : (d.withBlock G child ino mode).page (d.iSize / pageSize) =
    putInBlock G (d.page (d.iSize / pageSize)) (d.iSize % pageSize) child ino mode :=
  Dir.setPage_page_self

include h in
theorem page_before_last (hj : j * pageSize < d.iSize + G.blockSize)
    (hne : j ≠ d.iSize / pageSize) (hn : d.iSize ≤ n) :
    j < d.iSize / pageSize ∧ j * pageSize < d.iSize ∧ validBytes n j = validBytes d.iSize j := by
  obtain ⟨m, hm⟩ := h.aligned
  have hlt : j < d.iSize / pageSize := by
    rcases G.blockSize_cases with hb | hb | hb <;> rw [hb] at hm hj <;> unfold pageSize at * <;> omega
  refine ⟨hlt, ?_, ?_⟩ <;> unfold validBytes pageSize at * <;> omega

variable (child ino mode) in
include h in
theorem withBlock_last : ∃ os, TiledBy (d.page (d.iSize / pageSize)) 0 (d.iSize % pageSize) os ∧
    (∀ q ∈ os, entryAt ((d.withBlock G child ino mode).page (d.iSize / pageSize)) q =
      entryAt (d.page (d.iSize / pageSize)) q) ∧
    TiledBy ((d.withBlock G child ino mode).page (d.iSize / pageSize)) 0 (d.iSize % pageSize) os ∧
    TiledBy ((d.withBlock G child ino mode).page (d.iSize / pageSize)) 0
      (d.iSize % pageSize + G.blockSize) (os ++ [d.iSize % pageSize]) := by
  obtain ⟨os, hos⟩ := lastPage_tiled h
  rw [withBlock_page_last]
  have hsame := hos.below fun y hy =>
    putInBlock_before G (d.page (d.iSize / pageSize)) ino mode child hy
  exact ⟨os, hos, fun q hq => (hsame q hq).entryAt, hos.congr hsame,
    (hos.congr hsame).append putInBlock_tiled⟩

include h in
theorem withBlock_pages {P : Bytes → Nat → Prop} (hold : ∀ {j}, j * pageSize < d.iSize →
      P (d.page j) (validBytes d.iSize j))
    (hlast : P ((d.withBlock G child ino mode).page (d.iSize / pageSize)) (d.iSize % pageSize) ∧
      P ((d.withBlock G child ino mode).page (d.iSize / pageSize))
        (d.iSize % pageSize + G.blockSize))
    (hj : j * pageSize < (d.withBlock G child ino mode).iSize) :
    P ((d.withBlock G child ino mode).page j) (validBytes (d.withBlock G child ino mode).iSize j) := by
  have hgrown : (d.withBlock G child ino mode).iSize =
      if d.iSize + G.blockSize < 2 ^ 32 then d.iSize + G.blockSize else d.iSize := rfl
  have hle : d.iSize ≤ (d.withBlock G child ino mode).iSize := by
    rw [hgrown]
    split <;> omega
  have hj' : j * pageSize < d.iSize + G.blockSize := by
    rw [hgrown] at hj
    split at hj <;> omega
  by_cases hne : j = d.iSize / pageSize
  · subst hne
    by_cases hlt : d.iSize + G.blockSize < 2 ^ 32
    · rw [hgrown, if_pos hlt, validBytes_grown h]
      exact hlast.2
    · rw [hgrown, if_neg hlt, validBytes_last]
      exact hlast.1
  · obtain ⟨-, hi, hvalid⟩ := page_before_last h hj' hne hle
    rw [withBlock_page_of_ne hne, hvalid]
    exact hold hi

include h in
theorem withBlock_size : (d.withBlock G child ino mode).iSize < 2 ^ 32 ∧
    G.blockSize ∣ (d.withBlock G child ino mode).iSize := by
  have hgrown : (d.withBlock G child ino mode).iSize =
      if d.iSize + G.blockSize < 2 ^ 32 then d.iSize + G.blockSize else d.iSize := rfl
  rw [hgrown]
  split
  · exact ⟨‹_›, Nat.dvd_add h.aligned (Nat.dvd_refl _)⟩
  · exact ⟨h.size, h.aligned⟩

theorem withBlock_tiled (h : d.Tiled G) : (d.withBlock G child ino mode).Tiled G := by
  obtain ⟨os, hos, -, hold, hnew⟩ := withBlock_last ino mode child h.paged
  have hcut : ∀ x, G.blockSize ∣ x → x < d.iSize % pageSize → x ∈ os := by
    intro x hx hlt
    rw [← validBytes_last] at hos hlt
    have hsplit := div_add_mod' d.iSize pageSize
    rw [validBytes_last] at hlt
    exact (h.pageTiled (by omega) hos).2 x hx (by rw [validBytes_last]; exact hlt)
  have hcut' : ∀ x, G.blockSize ∣ x → x < d.iSize % pageSize + G.blockSize →
      x ∈ os ++ [d.iSize % pageSize] := by
    intro x hx hlt
    rcases lt_or_ge x (d.iSize % pageSize) with hlt' | hge
    · exact mem_append_left _ (hcut x hx hlt')
    · refine mem_append_right _ (mem_singleton.2 ?_)
      obtain ⟨m, hm⟩ := (dvd_mod_iff blockSize_dvd_page).2 h.aligned
      obtain ⟨k, rfl⟩ := hx
      rw [hm] at hge hlt ⊢
      rw [← mul_succ] at hlt
      have h1 := Nat.le_of_mul_le_mul_left hge G.blockSize_pos
      have h2 := Nat.lt_of_mul_lt_mul_left hlt
      rw [show k = m by omega]
  exact Dir.Tiled.of_pages (withBlock_size h.paged).1 (withBlock_size h.paged).2 fun j hj =>
    withBlock_pages (P := fun buf v => ∃ os, PageTiled G buf v os) h.paged h.page
      ⟨⟨_, hold, hcut⟩, _, hnew, hcut'⟩ hj

end Block

/-! ## Deletion -/

section Delete

variable (h : d.Paged G)

include h in
/-- `ext2_find_entry` and `ext2_delete_entry` find the same entry of a page. -/
theorem page_cases (hi : i < pageNr d.iSize) (child : List UInt8) :
    ∃ os, d.TiledAt i os ∧
      (((∀ o ∈ os, deMatches (d.page i) o child = false) ∧ findIn d child i = some none ∧
          deleteIn d child i = some none) ∨
        ∃ l₁ o l₂, os = l₁ ++ o :: l₂ ∧ deMatches (d.page i) o child = true ∧
          findIn d child i = some (some (i, o)) ∧
          deleteIn d child i = some (some (.ok (i, l₁.getLast?, o)))) := by
  have hi' := (lt_pageNr h.size).1 hi
  obtain ⟨os, hos⟩ := h.page hi'
  refine ⟨os, hos, ?_⟩
  rw [findIn_eq h.size hi' hos]
  cases hfind : os.find? fun o => deMatches (d.page i) o child with
  | none =>
    have hnot : ∀ o ∈ os, deMatches (d.page i) o child = false := fun o ho =>
      Bool.eq_false_iff.2 (List.find?_eq_none.1 hfind o ho)
    exact .inl ⟨hnot, rfl, deleteIn_none h.size hi' hos hnot⟩
  | some o =>
    obtain ⟨hm, l₁, l₂, hsplit, hl₁⟩ := List.find?_eq_some_iff_append.1 hfind
    have hnot : ∀ q ∈ l₁, deMatches (d.page i) q child = false := fun q hq =>
      Bool.eq_false_iff.2 fun hq' => by simpa [hq'] using hl₁ q hq
    exact .inr ⟨l₁, o, l₂, hsplit, hm, rfl, deleteIn_some h.size hi' hos hsplit hm hnot⟩

include h in
theorem findEntry_cases (child : List UInt8) :
    (ext2FindEntry d child = some none ∧ ∀ i < pageNr d.iSize, findIn d child i = some none) ∨
    ∃ i o, i < pageNr d.iSize ∧ ext2FindEntry d child = some (some (i, o)) ∧
      findIn d child i = some (some (i, o)) ∧ ∀ j < i, findIn d child j = some none := by
  have hpages : ∀ j, 0 ≤ j → j < 0 + pageNr d.iSize → findIn d child j ≠ none := by
    intro j _ hj heq
    obtain ⟨os, -, ⟨-, hfind, -⟩ | ⟨l₁, o, l₂, -, -, hfind, -⟩⟩ :=
      page_cases h (i := j) (by omega) child <;> rw [hfind] at heq <;> cases heq
  rcases scanPages_cases hpages with ⟨hall, heq⟩ | ⟨i, r, -, hi, hbefore, hr, heq⟩
  · exact .inl ⟨heq, fun i hi => hall i (zero_le i) (by omega)⟩
  · obtain ⟨os, -, ⟨-, hfind, -⟩ | ⟨l₁, o, l₂, -, -, hfind, -⟩⟩ :=
      page_cases h (i := i) (by omega) child <;> rw [hfind] at hr <;> cases hr
    exact .inr ⟨i, o, by omega, heq, hfind, fun j hj => hbefore j (zero_le j) hj⟩

inductive Deleted (io : DirIo) (d : Dir) (child : List UInt8) : Int × Dir → Prop
  | absent : ext2FindEntry d child = some none → Deleted io d child (-enoent, d)
  /-- A page could not be read, and the entry is not in a page before it. -/
  | failed {j : Nat} : io.scan j < 0 →
      (∀ i o, ext2FindEntry d child = some (some (i, o)) → j ≤ i) →
      Deleted io d child (io.scan j, d)
  | found {i o : Nat} {l₁ l₂ : List Nat} : i * pageSize < d.iSize →
      d.TiledAt i (l₁ ++ o :: l₂) → deMatches (d.page i) o child = true →
      (∀ j ≤ i, ¬ io.scan j < 0) → ext2FindEntry d child = some (some (i, o)) →
      Deleted io d child (if io.write < 0 then io.write else io.inode,
        d.setPage i (dropEntry (d.page i) l₁.getLast? o))

include h in
theorem deleteEntry_cases (io : DirIo) (child : List UInt8) :
    ∃ res, ext2DeleteEntry io d child = some res ∧ Deleted io d child res := by
  have hpages : ∀ j, 0 ≤ j → j < 0 + pageNr d.iSize →
      (if io.scan j < 0 then some (some (Except.error (io.scan j))) else deleteIn d child j) ≠
        none := by
    intro j _ hj heq
    split_ifs at heq
    obtain ⟨os, -, ⟨-, -, hdel⟩ | ⟨l₁, o, l₂, -, -, -, hdel⟩⟩ :=
      page_cases h (i := j) (by omega) child <;> rw [hdel] at heq <;> cases heq
  -- a page that was passed could be read and does not have the name
  have hpassed : ∀ {j}, j < pageNr d.iSize →
      (if io.scan j < 0 then some (some (Except.error (io.scan j))) else deleteIn d child j) =
        some none → ¬ io.scan j < 0 ∧ findIn d child j = some none := by
    intro j hj heq
    split_ifs at heq with hscan
    · cases heq
    · obtain ⟨os, -, ⟨-, hfind, -⟩ | ⟨l₁, o, l₂, -, -, -, hdel⟩⟩ := page_cases h hj child
      · exact ⟨hscan, hfind⟩
      · rw [hdel] at heq
        cases heq
  unfold ext2DeleteEntry
  rcases scanPages_cases hpages with ⟨hall, heq⟩ | ⟨j, r, -, hj, hbefore, hr, heq⟩ <;> rw [heq]
  · refine ⟨_, rfl, Deleted.absent ?_⟩
    exact scanPages_none fun j h1 h2 => (hpassed (by omega) (hall j h1 h2)).2
  · have hj' : j < pageNr d.iSize := by omega
    have hpassed' : ∀ l < j, ¬ io.scan l < 0 ∧ findIn d child l = some none := fun l hl =>
      hpassed (lt_trans hl hj') (hbefore l (zero_le l) hl)
    split at hr
    · rename_i hscan
      cases hr
      refine ⟨_, rfl, Deleted.failed hscan fun i o hfound => ?_⟩
      rcases findEntry_cases h child with ⟨hnone, -⟩ | ⟨i', o', hi', hsome, hfind, -⟩
      · rw [hnone] at hfound
        cases hfound
      · rw [hsome] at hfound
        cases hfound
        refine Nat.le_of_not_lt fun hlt => ?_
        rw [(hpassed' i hlt).2] at hfind
        cases hfind
    · rename_i hscan
      obtain ⟨os, hos, ⟨-, -, hdel⟩ | ⟨l₁, o, l₂, rfl, hm, hfind, hdel⟩⟩ := page_cases h hj' child <;>
        rw [hdel] at hr <;> cases hr
      have hfound : ext2FindEntry d child = some (some (j, o)) :=
        scanPages_eq (zero_le j) hj (fun l _ hl => (hpassed' l hl).2) hfind nofun
      refine ⟨(if io.write < 0 then io.write else io.inode, _), ?_,
        Deleted.found ((lt_pageNr h.size).1 hj') hos hm (fun l hl => ?_) hfound⟩
      · dsimp only
        split <;> rfl
      · rcases lt_or_eq_of_le hl with hl | rfl
        · exact (hpassed' l hl).1
        · exact hscan

end Delete

end ZzzOs.Fs.Ext2
