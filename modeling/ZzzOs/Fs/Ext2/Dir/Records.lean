import ZzzOs.Fs.Ext2.Dir.Model
import Mathlib.Data.List.Nodup

/-!
# The entries of a page

A range of a page is well formed if its entries tile it and each is long enough for its name
(`TiledBy`). A deletion merges two entries or marks one as free, an insertion takes a free one or
splits one.
-/

namespace ZzzOs.Fs.Ext2

open Lib List Nat

variable {buf buf' buf'' : Bytes} {a b lo hi o p q ino mode len n m : Nat} {child : List UInt8}
  {os l₁ l₂ : List Nat}

/-! ## Fields -/

structure GoodEntry (buf : Bytes) (o : Nat) : Prop where
  real : ext2DirRecLen (deNameLen buf o) ≤ deRecLen buf o
  aligned : 4 ∣ deRecLen buf o

def SameEntry (buf buf' : Bytes) (q : Nat) : Prop :=
  ∀ y, q ≤ y → y < q + 8 + deNameLen buf q → buf' y = buf y

def Frame (buf buf' : Bytes) (lo hi : Nat) : Prop := ∀ y, y < lo ∨ hi ≤ y → buf' y = buf y

theorem le_recLen (n : Nat) : n + 8 ≤ ext2DirRecLen n := by
  unfold ext2DirRecLen
  omega

theorem recLen_le (n : Nat) : ext2DirRecLen n ≤ n + 11 := div_mul_le_self _ _

theorem recLen_mono (h : m ≤ n) : ext2DirRecLen m ≤ ext2DirRecLen n := by
  unfold ext2DirRecLen
  omega

theorem four_dvd_recLen (n : Nat) : 4 ∣ ext2DirRecLen n := dvd_mul_left 4 _

section Same

variable (h : SameEntry buf buf' q)

include h

theorem SameEntry.inode : deInode buf' q = deInode buf q :=
  Bytes.word_congr fun y h1 h2 => h y h1 (by omega)

theorem SameEntry.recLen : deRecLen buf' q = deRecLen buf q :=
  Bytes.word_congr fun y h1 h2 => h y (by omega) (by omega)

theorem SameEntry.nameLen : deNameLen buf' q = deNameLen buf q := by
  rw [deNameLen, h (q + 6) (by omega) (by omega)]
  rfl

theorem SameEntry.name : deName buf' q = deName buf q := by
  rw [deName, h.nameLen]
  refine map_congr_left fun i hi => h _ (by omega) ?_
  have := mem_range.1 hi
  omega

theorem SameEntry.good (hg : GoodEntry buf q) : GoodEntry buf' q := by
  refine ⟨?_, ?_⟩
  · rw [h.nameLen, h.recLen]
    exact hg.real
  · rw [h.recLen]
    exact hg.aligned

end Same

section

variable (h : Frame buf buf' lo hi)

include h

theorem Frame.sameEntry (hq : q + 8 + deNameLen buf q ≤ lo ∨ hi ≤ q) :
    SameEntry buf buf' q := fun y h1 h2 => h y (by omega)

theorem Frame.mono {lo' hi' : Nat} (hlo : lo' ≤ lo) (hhi : hi ≤ hi') :
    Frame buf buf' lo' hi' := fun y hy => h y (by omega)

theorem Frame.trans (h' : Frame buf' buf'' lo hi) :
    Frame buf buf'' lo hi := fun y hy => (h' y hy).trans (h y hy)

theorem Frame.word (hd : a + n ≤ lo ∨ hi ≤ a) :
    buf'.word a n = buf.word a n := Bytes.word_congr fun y h1 h2 => h y (by omega)

end

theorem frame_setWord (n v : Nat) : Frame buf (buf.setWord a n v) a (a + n) := fun _ hy =>
  if_neg (by omega)

theorem frame_write (n : Nat) (data : Bytes) : Frame buf (buf.write a n data) a (a + n) :=
  fun _ hy => Bytes.write_out hy

theorem frame_init : Frame buf (ext2InitDirEntry buf o ino mode child len) o
    (o + 8 + child.length) := by
  refine Frame.trans ?_ ((frame_write child.length (ofList child)).mono (by omega) (by omega))
  refine Frame.trans ?_ ((frame_setWord 1 _).mono (by omega) (by omega))
  refine Frame.trans ?_ ((frame_setWord 1 _).mono (by omega) (by omega))
  refine Frame.trans ?_ ((frame_setWord 2 _).mono (by omega) (by omega))
  exact (frame_setWord 4 _).mono (by omega) (by omega)

/-! ## A new entry -/

section Init

variable (buf o ino mode child len)

theorem init_inode : deInode (ext2InitDirEntry buf o ino mode child len) o = ino % 2 ^ 32 := by
  unfold ext2InitDirEntry deInode
  rw [(frame_write _ _).word (by omega), (frame_setWord 1 _).word (by omega),
    (frame_setWord 1 _).word (by omega), (frame_setWord 2 _).word (by omega)]
  exact Bytes.word_setWord_self _ _ _ _

theorem init_recLen : deRecLen (ext2InitDirEntry buf o ino mode child len) o = len % 2 ^ 16 := by
  unfold ext2InitDirEntry deRecLen
  rw [(frame_write _ _).word (by omega), (frame_setWord 1 _).word (by omega),
    (frame_setWord 1 _).word (by omega)]
  exact Bytes.word_setWord_self _ _ _ _

theorem init_nameLen :
    deNameLen (ext2InitDirEntry buf o ino mode child len) o = child.length % 256 := by
  unfold ext2InitDirEntry deNameLen
  rw [Bytes.write_out (by omega)]
  have h1 : ∀ (m : Bytes) v, m.setWord (o + 7) 1 v (o + 6) = m (o + 6) := fun m v =>
    if_neg (by omega)
  have h2 : ∀ (m : Bytes) v, m.setWord (o + 6) 1 v (o + 6) = UInt8.ofNat v := fun m v => by
    rw [Bytes.setWord, if_pos (by omega), Nat.sub_self, Nat.pow_zero, Nat.div_one]
  rw [h1, h2]
  exact UInt8.toNat_ofNat'

theorem init_name : deName (ext2InitDirEntry buf o ino mode child len) o = diskName child := by
  have hle := mod_le child.length 256
  rw [deName, init_nameLen, deBytes]
  refine ext_getElem (by simp [diskName, hle]) fun i h1 h2 => ?_
  have hi : i < child.length := by
    rw [diskName, length_take] at h2
    omega
  simp only [diskName]
  rw [getElem_map, getElem_range, getElem_take]
  unfold ext2InitDirEntry
  rw [Bytes.write_in hi]
  exact getD_eq_getElem child 0 hi

end Init

/-- What the directory says about the entry at `o`. -/
def entryAt (buf : Bytes) (o : Nat) : Option (List UInt8 × Nat) :=
  if deInode buf o = 0 then none else some (deName buf o, deInode buf o)

theorem SameEntry.entryAt (h : SameEntry buf buf' q) : entryAt buf' q = entryAt buf q := by
  rw [Ext2.entryAt, h.inode, h.name]
  rfl

/-- What a new entry says. -/
def newEntry (child : List UInt8) (ino : Nat) : Option (List UInt8 × Nat) :=
  if ino % 2 ^ 32 = 0 then none else some (diskName child, ino % 2 ^ 32)

theorem entryAt_init : entryAt (ext2InitDirEntry buf o ino mode child len) o = newEntry child ino := by
  rw [entryAt, init_inode, init_name]
  rfl

theorem diskName_eq (hlen : child.length ≤ 255) : diskName child = child := by
  rw [diskName, mod_eq_of_lt (by omega), take_length]

theorem newEntry_eq (hpos : 0 < ino) (hlt : ino < 2 ^ 32) :
    newEntry child ino = some (diskName child, ino) := by
  rw [newEntry, mod_eq_of_lt hlt, if_neg (ne_of_gt hpos)]

theorem good_init (hlt : len < 2 ^ 16)
    (hreal : ext2DirRecLen (child.length % 256) ≤ len) (hal : 4 ∣ len) :
    GoodEntry (ext2InitDirEntry buf o ino mode child len) o := by
  refine ⟨?_, ?_⟩
  · rw [init_nameLen, init_recLen, mod_eq_of_lt hlt]
    exact hreal
  · rw [init_recLen, mod_eq_of_lt hlt]
    exact hal

/-! ## A new length -/

theorem setRecLen_recLen (hlt : len < 2 ^ 16) : deRecLen (deSetRecLen buf p len) p = len :=
  (Bytes.word_setWord_self _ _ _ _).trans (mod_eq_of_lt hlt)

theorem frame_setRecLen : Frame buf (deSetRecLen buf p len) (p + 4) (p + 6) := frame_setWord 2 _

theorem setRecLen_nameLen : deNameLen (deSetRecLen buf p len) p = deNameLen buf p := by
  rw [deNameLen, frame_setRecLen (p + 6) (by omega)]
  rfl

theorem setRecLen_entryAt : entryAt (deSetRecLen buf p len) p = entryAt buf p := by
  have hinode : deInode (deSetRecLen buf p len) p = deInode buf p :=
    Bytes.word_congr fun y h1 h2 => frame_setRecLen y (by omega)
  have hname : deName (deSetRecLen buf p len) p = deName buf p := by
    rw [deName, setRecLen_nameLen]
    exact map_congr_left fun i _ => frame_setRecLen _ (by omega)
  rw [entryAt, hinode, hname]
  rfl

/-! ## Ranges -/

structure TiledBy (buf : Bytes) (a b : Nat) (os : List Nat) : Prop where
  tiles : Tiles (deRecLen buf) a b os
  good : ∀ o ∈ os, GoodEntry buf o

theorem GoodEntry.name_le (h : GoodEntry buf q) : 8 + deNameLen buf q ≤ deRecLen buf q := by
  have hreal := h.real
  have hle := le_recLen (deNameLen buf q)
  omega

theorem TiledBy.congr (h : TiledBy buf a b os) (hsame : ∀ q ∈ os, SameEntry buf buf' q) :
    TiledBy buf' a b os where
  tiles := h.tiles.congr fun q hq => (hsame q hq).recLen
  good q hq := (hsame q hq).good (h.good q hq)

section

variable (h : TiledBy buf a b os) (ho : o ∈ os)

include h ho

theorem TiledBy.sameEntry (hq : q ∈ os) (hne : q ≠ o)
    (hf : Frame buf buf' o (o + deRecLen buf o)) : SameEntry buf buf' q := by
  have hname := (h.good q hq).name_le
  refine hf.sameEntry ?_
  rcases h.tiles.disjoint hq ho hne with hdis | hdis
  · exact .inl (by omega)
  · exact .inr hdis

/-- What an entry is changed to has the same length, and is well formed. -/
theorem TiledBy.replace
    (hf : Frame buf buf' o (o + deRecLen buf o)) (hlen : deRecLen buf' o = deRecLen buf o)
    (hgood : GoodEntry buf' o) : TiledBy buf' a b os := by
  refine ⟨h.tiles.congr fun q hq => ?_, fun q hq => ?_⟩
  · by_cases hqo : q = o
    · rw [hqo, hlen]
    · exact (h.sameEntry ho hq hqo hf).recLen
  · by_cases hqo : q = o
    · rw [hqo]
      exact hgood
    · exact (h.sameEntry ho hq hqo hf).good (h.good q hq)

theorem TiledBy.recLen_lt (hb : b ≤ pageSize) : deRecLen buf o < 2 ^ 16 := by
  have hbounds := (h.tiles.bounds ho).2.2
  have hsize : pageSize = 4096 := rfl
  omega

end

/-! ## Deletion -/

theorem TiledBy.drop (h : TiledBy buf a b (l₁ ++ p :: o :: l₂)) (hb : b ≤ pageSize) :
    TiledBy (dropEntry buf (some p) o) a b (l₁ ++ p :: l₂) ∧
      ∀ q ∈ l₁ ++ p :: l₂, entryAt (dropEntry buf (some p) o) q = entryAt buf q := by
  have hp : p ∈ l₁ ++ p :: o :: l₂ := by simp
  have ho : o ∈ l₁ ++ p :: o :: l₂ := by simp
  have hlt : deRecLen buf p + deRecLen buf o < 2 ^ 16 := by
    obtain ⟨-, -, hmid⟩ := h.tiles.of_append_cons
    obtain ⟨rfl, -, hrest⟩ := hmid
    have hle := hrest.le
    have hsize : pageSize = 4096 := rfl
    omega
  have hset : dropEntry buf (some p) o = deSetRecLen buf p (deRecLen buf p + deRecLen buf o) := by
    rw [dropEntry, mod_eq_of_lt hlt]
  rw [hset]
  have hout : p ∉ l₁ ++ o :: l₂ := (nodup_cons.1 (nodup_middle.1 h.tiles.nodup)).1
  have hmem : ∀ {q}, q ∈ l₁ ++ l₂ → q ∈ l₁ ++ o :: l₂ := fun hq =>
    perm_middle.mem_iff.2 (mem_cons_of_mem o hq)
  have hsame : ∀ q ∈ l₁ ++ l₂,
      SameEntry buf (deSetRecLen buf p (deRecLen buf p + deRecLen buf o)) q := by
    intro q hq
    refine h.sameEntry hp (perm_middle.mem_iff.2 (mem_cons_of_mem p (hmem hq)))
      (ne_of_mem_of_not_mem (hmem hq) hout) (frame_setRecLen.mono (by omega) ?_)
    have := (h.good p hp).name_le
    omega
  refine ⟨⟨h.tiles.merge (setRecLen_recLen hlt) fun q hq => (hsame q hq).recLen,
    fun q hq => ?_⟩, fun q hq => ?_⟩
  · rcases mem_cons.1 (perm_middle.mem_iff.1 hq) with rfl | hq
    · refine ⟨?_, ?_⟩
      · rw [setRecLen_nameLen, setRecLen_recLen hlt]
        exact le_trans (h.good q hp).real (le_add_right _ _)
      · rw [setRecLen_recLen hlt]
        exact Nat.dvd_add (h.good q hp).aligned (h.good o ho).aligned
    · exact (hsame q hq).good (h.good q (perm_middle.mem_iff.2 (mem_cons_of_mem p (hmem hq))))
  · rcases mem_cons.1 (perm_middle.mem_iff.1 hq) with rfl | hq
    · rw [setRecLen_entryAt]
    · exact (hsame q hq).entryAt

theorem TiledBy.free (h : TiledBy buf a b os) (ho : o ∈ os) :
    TiledBy (dropEntry buf none o) a b os ∧ entryAt (dropEntry buf none o) o = none ∧
      ∀ q ∈ os, q ≠ o → entryAt (dropEntry buf none o) q = entryAt buf q := by
  have hframe : Frame buf (dropEntry buf none o) o (o + 4) := frame_setWord 4 0
  have hlen : deRecLen (dropEntry buf none o) o = deRecLen buf o :=
    Bytes.word_congr fun y h1 h2 => hframe y (by omega)
  have hname : deNameLen (dropEntry buf none o) o = deNameLen buf o := by
    rw [deNameLen, hframe (o + 6) (by omega)]
    rfl
  have hle := (h.good o ho).name_le
  have hframe' := hframe.mono (le_refl o) (show o + 4 ≤ o + deRecLen buf o by omega)
  refine ⟨h.replace ho hframe' hlen ⟨?_, ?_⟩, ?_, fun q hq hne =>
    (h.sameEntry ho hq hne hframe').entryAt⟩
  · rw [hname, hlen]
    exact (h.good o ho).real
  · rw [hlen]
    exact (h.good o ho).aligned
  · rw [entryAt, if_pos]
    exact Bytes.word_setWord_self _ _ _ _

/-! ## Insertion -/

variable (ino mode) in
theorem TiledBy.take (h : TiledBy buf a b os) (ho : o ∈ os) (hb : b ≤ pageSize)
    (hfit : ext2DirRecLen child.length ≤ deRecLen buf o) :
    TiledBy (ext2InitDirEntry buf o ino mode child (deRecLen buf o)) a b os ∧ ∀ q ∈ os, q ≠ o →
        entryAt (ext2InitDirEntry buf o ino mode child (deRecLen buf o)) q = entryAt buf q := by
  have hlt := h.recLen_lt ho hb
  have hle := le_recLen child.length
  have hframe : Frame buf (ext2InitDirEntry buf o ino mode child (deRecLen buf o)) o
      (o + deRecLen buf o) := frame_init.mono (le_refl o) (by omega)
  have hreal := le_trans (recLen_mono (mod_le child.length 256)) hfit
  refine ⟨h.replace ho hframe ?_ (good_init hlt hreal (h.good o ho).aligned),
    fun q hq hne => (h.sameEntry ho hq hne hframe).entryAt⟩
  rw [init_recLen, mod_eq_of_lt hlt]

variable (ino mode) in
theorem TiledBy.split (h : TiledBy buf a b (l₁ ++ p :: l₂)) (hb : b ≤ pageSize)
    (hfit : ext2DirRecLen (deNameLen buf p) + ext2DirRecLen child.length ≤ deRecLen buf p) :
    TiledBy (ext2InitDirEntry (deSetRecLen buf p (ext2DirRecLen (deNameLen buf p)))
        (p + ext2DirRecLen (deNameLen buf p)) ino mode child
        (deRecLen buf p - ext2DirRecLen (deNameLen buf p)))
      a b (l₁ ++ p :: (p + ext2DirRecLen (deNameLen buf p)) :: l₂) ∧
    ∀ q ∈ l₁ ++ p :: l₂,
      entryAt (ext2InitDirEntry (deSetRecLen buf p (ext2DirRecLen (deNameLen buf p)))
        (p + ext2DirRecLen (deNameLen buf p)) ino mode child
        (deRecLen buf p - ext2DirRecLen (deNameLen buf p))) q = entryAt buf q := by
  have hp : p ∈ l₁ ++ p :: l₂ := by simp
  have hlt := h.recLen_lt hp hb
  have hle := le_recLen child.length
  have hler := le_recLen (deNameLen buf p)
  have hal := (h.good p hp).aligned
  have hout : p ∉ l₁ ++ l₂ := (nodup_cons.1 (nodup_middle.1 h.tiles.nodup)).1
  generalize hr : ext2DirRecLen (deNameLen buf p) = r at hfit hler ⊢
  have hr4 : 4 ∣ r := hr ▸ four_dvd_recLen _
  generalize hbuf' : ext2InitDirEntry (deSetRecLen buf p r) (p + r) ino mode child
    (deRecLen buf p - r) = buf'
  have hinit : Frame (deSetRecLen buf p r) buf' (p + r) (p + r + 8 + child.length) :=
    hbuf' ▸ frame_init
  have hframe : Frame buf buf' p (p + deRecLen buf p) :=
    (frame_setRecLen.mono (by omega) (by omega)).trans (hinit.mono (by omega) (by omega))
  have hpsame : SameEntry (deSetRecLen buf p r) buf' p := by
    refine hinit.sameEntry (.inl ?_)
    rw [setRecLen_nameLen]
    omega
  have hplen : deRecLen buf' p = r := hpsame.recLen.trans (setRecLen_recLen (by omega))
  have hnlen : deRecLen buf' (p + r) = deRecLen buf p - r := by
    rw [← hbuf', init_recLen, mod_eq_of_lt (by omega)]
  have hmem : ∀ {q}, q ∈ l₁ ++ l₂ → q ∈ l₁ ++ p :: l₂ := fun hq =>
    perm_middle.mem_iff.2 (mem_cons_of_mem p hq)
  have hsame : ∀ q ∈ l₁ ++ l₂, SameEntry buf buf' q := fun q hq =>
    h.sameEntry hp (hmem hq) (ne_of_mem_of_not_mem hq hout) hframe
  refine ⟨⟨h.tiles.split (by omega) (by omega) hplen hnlen fun q hq => (hsame q hq).recLen,
    fun q hq => ?_⟩, fun q hq => ?_⟩
  · rcases mem_cons.1 (perm_middle.mem_iff.1 hq) with rfl | hq
    · refine ⟨?_, ?_⟩
      · rw [hpsame.nameLen, setRecLen_nameLen, hr, hplen]
      · rw [hplen]
        exact hr4
    · rcases mem_cons.1 (perm_middle.mem_iff.1 hq) with rfl | hq
      · rw [← hbuf']
        have hreal := recLen_mono (mod_le child.length 256)
        exact good_init (by omega) (by omega) (dvd_sub hal hr4)
      · exact (hsame q hq).good (h.good q (hmem hq))
  · rcases mem_cons.1 (perm_middle.mem_iff.1 hq) with rfl | hq
    · rw [hpsame.entryAt, setRecLen_entryAt]
    · exact (hsame q hq).entryAt

end ZzzOs.Fs.Ext2
