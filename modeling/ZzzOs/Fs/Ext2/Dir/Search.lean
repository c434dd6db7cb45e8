import ZzzOs.Fs.Ext2.Bitmap
import ZzzOs.Fs.Ext2.Dir.Records

/-!
# Searches of a well-formed directory

Every block of the directory is tiled by its entries (`Dir.Tiled`). The functions go through whole
pages; here is what each loop over a page comes to, in terms of the list of its entries.
-/

namespace ZzzOs.Fs.Ext2

open Lib List Nat

variable {G : Geometry} {d : Dir} {buf : Bytes} {a b i k n o v x r c j : Nat}
  {os l₁ l₂ l : List Nat} {child : List UInt8}

/-! ## Blocks and pages -/

structure Dir.Tiled (G : Geometry) (d : Dir) : Prop where
  size : d.iSize < 2 ^ 32
  aligned : G.blockSize ∣ d.iSize
  block : ∀ k, k * G.blockSize < d.iSize → ∃ os,
    TiledBy (d.page (k * G.blockSize / pageSize)) (k * G.blockSize % pageSize)
      (k * G.blockSize % pageSize + G.blockSize) os

/-- The first `v` bytes of a page are tiled, and an entry begins where a block does. -/
def PageTiled (G : Geometry) (buf : Bytes) (v : Nat) (os : List Nat) : Prop :=
  TiledBy buf 0 v os ∧ ∀ x, G.blockSize ∣ x → x < v → x ∈ os

def validBytes (iSize i : Nat) : Nat := min pageSize (iSize - i * pageSize)

/-- The pages of the directory are tiled by well-formed entries, which can cross the boundaries of
blocks. -/
structure Dir.Paged (G : Geometry) (d : Dir) : Prop where
  size : d.iSize < 2 ^ 32
  aligned : G.blockSize ∣ d.iSize
  page : ∀ {i}, i * pageSize < d.iSize → ∃ os, TiledBy (d.page i) 0 (validBytes d.iSize i) os

abbrev Dir.TiledAt (d : Dir) (i : Nat) : List Nat → Prop := TiledBy (d.page i) 0 (validBytes d.iSize i)

theorem lastValidByte_eq (hsize : d.iSize < 2 ^ 32) (hi : i * pageSize < d.iSize) :
    lastValidByte d.iSize i = validBytes d.iSize i := by
  unfold lastValidByte validBytes pageSize at *
  dsimp only
  split <;> omega

theorem lt_pageNr (hsize : d.iSize < 2 ^ 32) : i < pageNr d.iSize ↔ i * pageSize < d.iSize := by
  unfold pageNr pageSize
  omega

theorem blockSize_dvd_page : G.blockSize ∣ pageSize := by
  rcases G.blockSize_cases with h | h | h <;> rw [h] <;> decide

theorem validBytes_le : validBytes d.iSize i ≤ pageSize := min_le_left _ _

theorem dvd_validBytes (h : G.blockSize ∣ d.iSize) : G.blockSize ∣ validBytes d.iSize i := by
  unfold validBytes
  rcases le_total pageSize (d.iSize - i * pageSize) with hle | hle
  · rw [min_eq_left hle]
    exact blockSize_dvd_page
  · rw [min_eq_right hle]
    exact dvd_sub h (Dvd.dvd.mul_left blockSize_dvd_page i)

theorem block_place (hx : G.blockSize ∣ x) (hlt : x < pageSize) :
    ∃ k, k * G.blockSize = i * pageSize + x ∧ k * G.blockSize / pageSize = i ∧
      k * G.blockSize % pageSize = x := by
  obtain ⟨k, hk⟩ : G.blockSize ∣ i * pageSize + x :=
    Nat.dvd_add (Dvd.dvd.mul_left blockSize_dvd_page i) hx
  rw [mul_comm G.blockSize] at hk
  refine ⟨k, hk.symm, ?_, ?_⟩ <;> unfold pageSize at * <;> omega

theorem TiledBy.append (h₁ : TiledBy buf a b l₁)
    (h₂ : TiledBy buf b c l₂) : TiledBy buf a c (l₁ ++ l₂) where
  tiles := h₁.tiles.append h₂.tiles
  good o ho := by
    rcases mem_append.1 ho with ho | ho
    · exact h₁.good o ho
    · exact h₂.good o ho

theorem TiledBy.mem_start (h : TiledBy buf a b os) (hlt : a < b) : a ∈ os := by
  cases os with
  | nil => exact absurd (show a = b from h.tiles) (Nat.ne_of_lt hlt)
  | cons o os => exact h.tiles.1 ▸ mem_cons_self

theorem TiledBy.between (h : TiledBy buf a v l) (hb : b ∈ l ∨ b = v) :
    ∃ l₁ l₂, l = l₁ ++ l₂ ∧ TiledBy buf a b l₁ ∧ TiledBy buf b v l₂ := by
  rcases hb with hb | rfl
  · obtain ⟨l₁, l₂, rfl⟩ := append_of_mem hb
    obtain ⟨h₁, hpos, h₂⟩ := h.tiles.of_append_cons
    exact ⟨l₁, b :: l₂, rfl, ⟨h₁, fun o ho => h.good o (mem_append_left _ ho)⟩,
      ⟨rfl, hpos, h₂⟩, fun o ho => h.good o (mem_append_right _ ho)⟩
  · exact ⟨l, [], (append_nil l).symm, h, rfl, nofun⟩

theorem Dir.Tiled.page (h : d.Tiled G) (hi : i * pageSize < d.iSize) :
    ∃ os, PageTiled G (d.page i) (validBytes d.iSize i) os := by
  have hpos := G.blockSize_pos
  have hdvd := dvd_validBytes (i := i) h.aligned
  have hle := validBytes_le (d := d) (i := i)
  have hle' : validBytes d.iSize i ≤ d.iSize - i * pageSize := min_le_right _ _
  have hsteps : ∀ n, n * G.blockSize ≤ validBytes d.iSize i →
      ∃ os, PageTiled G (d.page i) (n * G.blockSize) os := by
    intro n
    induction n with
    | zero =>
      intro _
      rw [zero_mul]
      exact ⟨[], ⟨rfl, nofun⟩, nofun⟩
    | succ n ih =>
      intro hn
      rw [succ_mul] at hn ⊢
      obtain ⟨os, hos, hcut⟩ := ih (by omega)
      obtain ⟨k, hk, hpage, hoff⟩ := block_place (i := i) (dvd_mul_left _ n)
        (by omega : n * G.blockSize < pageSize)
      obtain ⟨os', hos'⟩ := h.block k (by omega)
      rw [hpage, hoff] at hos'
      refine ⟨os ++ os', hos.append hos', fun x hx hlt => ?_⟩
      rcases lt_or_ge x (n * G.blockSize) with hxn | hxn
      · exact mem_append_left _ (hcut x hx hxn)
      · obtain ⟨j, rfl⟩ := hx
        have hj : j = n := by
          have h1 : n ≤ j := Nat.le_of_mul_le_mul_right (by rw [Nat.mul_comm j]; exact hxn) hpos
          have h2 : j < n + 1 := by
            refine Nat.lt_of_mul_lt_mul_right (a := G.blockSize) ?_
            rw [Nat.mul_comm j, Nat.succ_mul]
            exact hlt
          omega
        rw [hj, mul_comm]
        exact mem_append_right _ (hos'.mem_start (by omega))
  obtain ⟨n, hn⟩ := hdvd
  obtain ⟨os, hos⟩ := hsteps n (by rw [hn, mul_comm])
  rw [mul_comm, ← hn] at hos
  exact ⟨os, hos⟩

theorem Dir.Tiled.paged (h : d.Tiled G) : d.Paged G where
  size := h.size
  aligned := h.aligned
  page hi := by
    obtain ⟨os, hos, -⟩ := h.page hi
    exact ⟨os, hos⟩

theorem Dir.Tiled.pageTiled (h : d.Tiled G) (hi : i * pageSize < d.iSize) (hos : d.TiledAt i os) :
    PageTiled G (d.page i) (validBytes d.iSize i) os := by
  obtain ⟨os', hos', hcut⟩ := h.page hi
  rw [hos'.tiles.unique hos.tiles] at hcut
  exact ⟨hos, hcut⟩

/-- Pages that are tiled with an entry at the start of every block. -/
theorem Dir.Tiled.of_pages (hsize : d.iSize < 2 ^ 32) (hal : G.blockSize ∣ d.iSize)
    (hpages : ∀ i, i * pageSize < d.iSize →
      ∃ os, PageTiled G (d.page i) (validBytes d.iSize i) os) : d.Tiled G := by
  refine ⟨hsize, hal, fun k hk => ?_⟩
  have hpos := G.blockSize_pos
  have hsplit := div_add_mod' (k * G.blockSize) pageSize
  have hmod := mod_lt (k * G.blockSize) (show 0 < pageSize by decide)
  generalize hi : k * G.blockSize / pageSize = i at hsplit
  generalize hx : k * G.blockSize % pageSize = x at hsplit hmod
  have hdx : G.blockSize ∣ x := hx ▸ (dvd_mod_iff blockSize_dvd_page).2 (dvd_mul_left _ k)
  obtain ⟨os, hos, hcut⟩ := hpages i (by omega)
  have hend : x + G.blockSize ≤ validBytes d.iSize i := by
    have hdv := dvd_validBytes (i := i) hal
    have hlt : x < validBytes d.iSize i := by
      unfold validBytes
      omega
    obtain ⟨y, rfl⟩ := hdx
    obtain ⟨w, hw⟩ := hdv
    rw [hw] at hlt ⊢
    exact Nat.mul_le_mul_left _ (Nat.lt_of_mul_lt_mul_left hlt)
  obtain ⟨l₁, l₂, rfl, h₁, h₂⟩ := hos.between (.inl (hcut x hdx (by omega)))
  have hnext : x + G.blockSize ∈ l₂ ∨ x + G.blockSize = validBytes d.iSize i := by
    rcases lt_or_eq_of_le hend with hlt | heq
    · refine .inl ((mem_append.1 (hcut _ (Nat.dvd_add hdx (Nat.dvd_refl _)) hlt)).resolve_left
        fun hmem => ?_)
      have hbounds := h₁.tiles.bounds hmem
      omega
    · exact .inr heq
  obtain ⟨l₃, l₄, rfl, h₃, h₄⟩ := h₂.between hnext
  exact ⟨l₃, h₃⟩

/-! ## Loops over a page -/

theorem deMatches_iff : deMatches buf o child = true ↔ entryAt buf o = some (child, deInode buf o) := by
  unfold deMatches entryAt deName
  by_cases h0 : deInode buf o = 0
  · simp [h0]
  · by_cases hlen : deNameLen buf o = child.length
    · simp [h0, hlen]
    · have hne : deBytes buf o (deNameLen buf o) ≠ child := fun he => hlen (by
        rw [← he, deBytes, length_map, length_range])
      simp [h0, hlen, hne]

theorem deMatches_real (h : deMatches buf o child = true) : deNameLen buf o = child.length := by
  unfold deMatches at h
  simp only [Bool.and_eq_true, beq_iff_eq] at h
  exact h.1.2

theorem TiledBy.length_lt (h : TiledBy buf 0 v os) (hv : v ≤ pageSize) : os.length < pageFuel := by
  have hle := h.tiles.length_le
  unfold pageFuel
  omega

/-- The loop of `ext2_find_entry` ends before the end of the page, but not before an entry it could
find. -/
theorem visit_takeWhile {P : Nat → Bool} (h : Tiles (deRecLen buf) a v os)
    (hP : ∀ o ∈ os, P o = true → o + r ≤ v) (hr : r ≤ v) :
    visit (fun (_ : Unit) o => if P o then .error o else .ok ()) ()
        (os.takeWhile fun o => decide (o ≤ v - r)) =
      match os.find? P with
      | some o => Except.error o
      | none => Except.ok () := by
  induction os generalizing a with
  | nil => rfl
  | cons o os ih =>
    by_cases hm : o ≤ v - r
    · rw [takeWhile_cons_of_pos (p := fun o => decide (o ≤ v - r)) (decide_eq_true hm), visit]
      by_cases ho : P o = true
      · rw [if_pos ho, List.find?_cons_of_pos ho]
      · rw [if_neg ho, List.find?_cons_of_neg ho]
        exact ih h.2.2 fun q hq => hP q (mem_cons_of_mem o hq)
    · have hnone : (o :: os).find? P = none := List.find?_eq_none.2 fun q hq hPq => by
        have hfit := hP q hq hPq
        have hle : o ≤ q := h.1 ▸ (h.bounds hq).1
        omega
      rw [takeWhile_cons_of_neg (by simpa using hm), hnone]
      rfl

section Page

variable (hsize : d.iSize < 2 ^ 32) (hi : i * pageSize < d.iSize) (h : d.TiledAt i os)

include hsize hi h

theorem findIn_eq : findIn d child i =
    some ((os.find? fun o => deMatches (d.page i) o child).map fun o => (i, o)) := by
  have hfit : ∀ o ∈ os, deMatches (d.page i) o child = true →
      o + ext2DirRecLen child.length ≤ validBytes d.iSize i := by
    intro o ho hm
    have hreal := (h.good o ho).real
    have hbounds := (h.tiles.bounds ho).2.2
    rw [deMatches_real hm] at hreal
    omega
  unfold findIn
  rw [lastValidByte_eq hsize hi]
  dsimp only
  split_ifs with hge
  · have hnone : os.find? (fun o => deMatches (d.page i) o child) = none :=
      List.find?_eq_none.2 fun o ho hm => by
        have := hfit o ho hm
        omega
    rw [hnone]
    rfl
  · have hpos := le_recLen child.length
    have hend : decide (validBytes d.iSize i ≤
        validBytes d.iSize i - ext2DirRecLen child.length) = false :=
      decide_eq_false (by omega)
    rw [scan_tiles h.tiles hend (h.length_lt validBytes_le),
      visit_takeWhile h.tiles hfit (Nat.le_of_not_lt hge)]
    cases os.find? fun o => deMatches (d.page i) o child <;> rfl

theorem scan_page {α σ : Type} (step : σ → Nat → Except α σ) (s : σ) :
    scan (deRecLen (d.page i)) (fun off => decide (off < lastValidByte d.iSize i)) step pageFuel s 0 =
      some (visit step s os) := by
  rw [lastValidByte_eq hsize hi, scan_tiles h.tiles (decide_eq_false (lt_irrefl _))
    (h.length_lt validBytes_le)]
  have hall : os.takeWhile (fun off => decide (off < validBytes d.iSize i)) = os :=
    takeWhile_eq_self_iff.2 fun o ho => by
      have hbounds := h.tiles.bounds ho
      exact decide_eq_true (by omega)
  rw [hall]

theorem deleteIn_none (hnot : ∀ o ∈ os, deMatches (d.page i) o child = false) :
    deleteIn d child i = some none := by
  unfold deleteIn
  dsimp only
  rw [scan_page hsize hi h, visit_ok (f := fun _ o => some o) fun o ho s => ?_]
  · rfl
  · have hpos := (h.tiles.bounds ho).2.1
    rw [if_neg (ne_of_gt hpos), hnot o ho, if_neg Bool.false_ne_true]

/-- `ext2_delete_entry` finds the first entry of the name, and the one before it. -/
theorem deleteIn_some (hos : os = l₁ ++ o :: l₂) (hm : deMatches (d.page i) o child = true)
    (hnot : ∀ q ∈ l₁, deMatches (d.page i) q child = false) :
    deleteIn d child i = some (some (.ok (i, l₁.getLast?, o))) := by
  have hpos : ∀ q ∈ os, deRecLen (d.page i) q ≠ 0 := fun q hq =>
    ne_of_gt (h.tiles.bounds hq).2.1
  have hlast : ∀ (l : List Nat) (s : Option Nat),
      l.foldl (fun _ o => some o) s = if l = [] then s else l.getLast? := by
    intro l
    induction l with
    | nil => exact fun s => rfl
    | cons q l ih =>
      intro s
      rw [foldl_cons, ih, if_neg (cons_ne_nil q l), List.getLast?_cons]
      cases l <;> rfl
  unfold deleteIn
  dsimp only
  rw [scan_page hsize hi h, hos, visit_append, visit_ok fun q hq s => ?_]
  · dsimp only
    rw [visit, if_neg (hpos o (by simp [hos])), if_pos hm, hlast]
    cases l₁ <;> rfl
  · rw [if_neg (hpos q (by simp [hos, hq])), hnot q hq, if_neg Bool.false_ne_true]

/-- The slots that `ext2_find_slot` can return: a free entry, or the rest of an entry in use. -/
theorem findSlotIn_cases (n : Nat) : findSlotIn d n i = some none ∨
    (∃ o ∈ os, deInode (d.page i) o = 0 ∧ ext2DirRecLen n ≤ deRecLen (d.page i) o ∧
      findSlotIn d n i = some (some ⟨i, o, 0, 0, deRecLen (d.page i) o⟩)) ∨
    ∃ p ∈ os, deInode (d.page i) p ≠ 0 ∧
      ext2DirRecLen (deNameLen (d.page i) p) + ext2DirRecLen n ≤ deRecLen (d.page i) p ∧
      findSlotIn d n i = some (some ⟨i, p + ext2DirRecLen (deNameLen (d.page i) p), p,
        ext2DirRecLen (deNameLen (d.page i) p),
        deRecLen (d.page i) p - ext2DirRecLen (deNameLen (d.page i) p)⟩) := by
  have hpos := le_recLen n
  unfold findSlotIn
  dsimp only
  rw [lastValidByte_eq hsize hi, scan_tiles h.tiles (decide_eq_false (by omega))
    (h.length_lt validBytes_le)]
  generalize hres : visit _ () _ = res
  cases res with
  | ok s => exact .inl rfl
  | error r =>
    obtain ⟨o, ho, -, hstep⟩ := visit_error hres
    have hmem : o ∈ os := takeWhile_subset _ ho
    split at hstep
    · rename_i h0
      split_ifs at hstep with hfit
      · cases hstep
        exact .inl rfl
      · cases hstep
        exact .inr (.inl ⟨o, hmem, h0, Nat.le_of_not_lt hfit, rfl⟩)
    · rename_i h0
      split_ifs at hstep with hfit
      cases hstep
      exact .inr (.inr ⟨o, hmem, h0, hfit, rfl⟩)

end Page

/-! ## Loops over the pages -/

section Pages

variable {α : Type} {f : Nat → Option (Option α)}

theorem scanPages_none (h : ∀ j, i ≤ j → j < i + n → f j = some none) :
    scanPages f n i = some none := by
  induction n generalizing i with
  | zero => rfl
  | succ n ih =>
    rw [scanPages, h i (le_refl i) (by omega)]
    exact ih fun j h1 h2 => h j (by omega) (by omega)

/-- The walk ends at the first page that is not passed. -/
theorem scanPages_eq {r : Option (Option α)} (hj : i ≤ j) (hlt : j < i + n)
    (hbefore : ∀ l, i ≤ l → l < j → f l = some none) (hr : f j = r) (hne : r ≠ some none) :
    scanPages f n i = r := by
  induction n generalizing i with
  | zero => omega
  | succ n ih =>
    rw [scanPages]
    rcases lt_or_eq_of_le hj with hij | rfl
    · rw [hbefore i (le_refl i) hij]
      exact ih hij (by omega) fun l h1 h2 => hbefore l (by omega) h2
    · rw [hr]
      rcases r with _ | _ | r
      · rfl
      · exact absurd rfl hne
      · rfl

theorem of_scanPages_eq_none (h : scanPages f n i = none) : ∃ j, i ≤ j ∧ j < i + n ∧
    (∀ l, i ≤ l → l < j → f l = some none) ∧ f j = none := by
  by_contra hno
  have hne : ∀ j, i ≤ j → j < i + n → (∀ l, i ≤ l → l < j → f l = some none) → f j ≠ none :=
    fun j h1 h2 h3 h4 => hno ⟨j, h1, h2, h3, h4⟩
  clear hno
  induction n generalizing i with
  | zero => cases h
  | succ n ih =>
    rw [scanPages] at h
    cases hf : f i with
    | none => exact hne i (le_refl i) (by omega) (fun l h1 h2 => absurd h2 (by omega)) hf
    | some res =>
      rw [hf] at h
      cases res with
      | some r => cases h
      | none =>
        refine ih h fun j h1 h2 h3 => hne j (by omega) (by omega) fun l h4 h5 => ?_
        rcases lt_or_eq_of_le h4 with hil | rfl
        · exact h3 l hil h5
        · exact hf

theorem scanPages_cases (h : ∀ j, i ≤ j → j < i + n → f j ≠ none) :
    ((∀ j, i ≤ j → j < i + n → f j = some none) ∧ scanPages f n i = some none) ∨
    ∃ j r, i ≤ j ∧ j < i + n ∧ (∀ l, i ≤ l → l < j → f l = some none) ∧ f j = some (some r) ∧
      scanPages f n i = some (some r) := by
  induction n generalizing i with
  | zero => exact .inl ⟨fun j h1 h2 => absurd h2 (by omega), rfl⟩
  | succ n ih =>
    cases hf : f i with
    | none => exact absurd hf (h i (le_refl i) (by omega))
    | some res =>
      cases res with
      | some r =>
        exact .inr ⟨i, r, le_refl i, by omega, fun l h1 h2 => absurd h2 (by omega), hf,
          scanPages_eq (le_refl i) (by omega) (fun l h1 h2 => absurd h2 (by omega)) hf nofun⟩
      | none =>
        have hstep : scanPages f (n + 1) i = scanPages f n (i + 1) := by rw [scanPages, hf]
        rw [hstep]
        rcases ih (i := i + 1) fun j h1 h2 => h j (by omega) (by omega) with
          ⟨hall, heq⟩ | ⟨j, r, h1, h2, hbefore, hr, heq⟩
        · refine .inl ⟨fun j h1 h2 => ?_, heq⟩
          rcases lt_or_eq_of_le h1 with hij | rfl
          · exact hall j hij (by omega)
          · exact hf
        · refine .inr ⟨j, r, by omega, by omega, fun l h3 h4 => ?_, hr, heq⟩
          rcases lt_or_eq_of_le h3 with hil | rfl
          · exact hbefore l hil h4
          · exact hf

end Pages

end ZzzOs.Fs.Ext2
