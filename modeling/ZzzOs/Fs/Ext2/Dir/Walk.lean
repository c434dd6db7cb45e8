import ZzzOs.Fs.Ext2.Dir.Search

/-!
# Walks over the records of a directory

A `Walk` is what the loops of `fs/ext2/ext2_dir.c` have in common: it goes from record to record by
`rec_len`, and from page to page, whatever the bytes are. It ends if and only if it comes to no record of
length 0 that it goes on from (`Walk.Follows.returns_iff`).
-/

namespace ZzzOs.Fs.Ext2

open Nat Lib

/-! ## Walks over the records of the pages -/

/-- What a loop does at a record: it goes on to the next record, it goes on to the next page, or the
function returns. -/
inductive Verdict where
  | go
  | leave
  | stop
deriving DecidableEq

/-- A loop over the pages `first`, …, `count - 1` and over the records of each page; the first page
begins at `off`. -/
structure Walk where
  first : Nat
  off : Nat
  count : Nat
  readable : Nat → Bool
  len : Nat → Nat → Nat
  more : Nat → Nat → Bool
  verdict : Nat → Nat → Verdict

namespace Walk

def start (w : Walk) (i : Nat) : Nat := if i = w.first then w.off else 0

inductive At (w : Walk) : Nat → Nat → Prop where
  | first : w.first < w.count → w.readable w.first = true → At w w.first w.off
  | next {i o : Nat} : At w i o → w.more i o = true → w.verdict i o = .go →
      At w i (o + w.len i o)
  | page {i o : Nat} : At w i o → (w.more i o = true → w.verdict i o = .leave) →
      i + 1 < w.count → w.readable (i + 1) = true → At w (i + 1) 0

def goes (w : Walk) (i o : Nat) : Bool := w.verdict i o == .go

def Step (w : Walk) (i : Nat) : Nat → Nat → Prop := Next (w.len i) (w.more i) (w.goes i)

/-- The loop over page `i` comes to offset `o`. -/
def Reaches (w : Walk) (i o : Nat) : Prop := Relation.ReflTransGen (w.Step i) (w.start i) o

/-- The loop stays at a record of length 0. -/
def Stuck (w : Walk) (i o : Nat) : Prop :=
  w.more i o = true ∧ w.verdict i o = .go ∧ w.len i o = 0

def Left (w : Walk) (i o : Nat) : Prop := w.more i o = true → w.verdict i o = .leave

/-- The function returns. -/
def Stopped (w : Walk) (i o : Nat) : Prop := w.more i o = true ∧ w.verdict i o = .stop

variable {w : Walk} {i j n o o' : Nat} {β : Type}

theorem goes_iff : w.goes i o = true ↔ w.verdict i o = .go := beq_iff_eq

theorem Stuck.final (h : w.Stuck i o) : Final (w.len i) (w.more i) (w.goes i) o :=
  fun _ _ => h.2.2

theorem Left.final (h : w.Left i o) : Final (w.len i) (w.more i) (w.goes i) o := by
  intro hm hg
  have hgo := goes_iff.1 hg
  rw [h hm] at hgo
  cases hgo

theorem Stopped.final (h : w.Stopped i o) : Final (w.len i) (w.more i) (w.goes i) o := by
  intro _ hg
  have hgo := goes_iff.1 hg
  rw [h.2] at hgo
  cases hgo

theorem Reaches.next (h : w.Reaches i o) (hm : w.more i o = true) (hg : w.verdict i o = .go) :
    w.Reaches i (o + w.len i o) :=
  h.tail ⟨hm, goes_iff.2 hg, rfl⟩

/-- From the beginning of the page, the walk comes to what the loop over the page reaches. -/
theorem At.reaches (h : w.At i (w.start i)) (hr : w.Reaches i o) : w.At i o := by
  induction hr with
  | refl => exact h
  | tail _ hstep ih =>
    obtain ⟨hm, hg, rfl⟩ := hstep
    exact ih.next hm (goes_iff.1 hg)

theorem start_succ (h : w.first ≤ i) : w.start (i + 1) = 0 := if_neg (by omega)

structure Follows (w : Walk) (f : Nat → Option (Option β)) : Prop where
  unreadable : ∀ {i}, w.readable i = false → ∃ r, f i = some (some r)
  page : ∀ {i}, i < w.count → w.readable i = true →
    (f i = none ∧ ∃ o, w.Reaches i o ∧ w.Stuck i o) ∨
    (f i = some none ∧ ∃ o, w.Reaches i o ∧ w.Left i o) ∨
    ∃ r, f i = some (some r) ∧ ∃ o, w.Reaches i o ∧ w.Stopped i o

namespace Follows

variable {f : Nat → Option (Option β)} (h : w.Follows f)

include h

section

variable (hi : i < w.count) (hread : w.readable i = true) (hr : w.Reaches i o)

include hi hread hr

theorem left (hleft : w.Left i o) : f i = some none := by
  rcases h.page hi hread with ⟨-, o', hr', hstuck⟩ | ⟨heq, -⟩ | ⟨r, -, o', hr', hstop⟩
  · obtain rfl := hleft.final.unique hstuck.final hr hr'
    have hgo := hleft hstuck.1
    rw [hstuck.2.1] at hgo
    cases hgo
  · exact heq
  · obtain rfl := hleft.final.unique hstop.final hr hr'
    have hgo := hleft hstop.1
    rw [hstop.2] at hgo
    cases hgo

theorem stuck (hstuck : w.Stuck i o) : f i = none := by
  rcases h.page hi hread with ⟨heq, -⟩ | ⟨-, o', hr', hleft⟩ | ⟨r, -, o', hr', hstop⟩
  · exact heq
  · obtain rfl := hleft.final.unique hstuck.final hr' hr
    have hgo := hleft hstuck.1
    rw [hstuck.2.1] at hgo
    cases hgo
  · obtain rfl := hstuck.final.unique hstop.final hr hr'
    have hgo := hstop.2
    rw [hstuck.2.1] at hgo
    cases hgo

end

theorem before (hat : w.At i o) : w.first ≤ i ∧ i < w.count ∧ w.readable i = true ∧ w.Reaches i o ∧
      ∀ j, w.first ≤ j → j < i → f j = some none := by
  induction hat with
  | first hlt hread =>
    refine ⟨Nat.le_refl _, hlt, hread, ?_, fun j h1 h2 => absurd h2 (Nat.not_lt.2 h1)⟩
    unfold Reaches start
    rw [if_pos rfl]
  | next _ hm hg ih =>
    obtain ⟨hfirst, hlt, hread, hr, hall⟩ := ih
    exact ⟨hfirst, hlt, hread, hr.next hm hg, hall⟩
  | @page i o _ hleft hlt hread ih =>
    obtain ⟨hfirst, hi, hreadi, hr, hall⟩ := ih
    refine ⟨by omega, hlt, hread, ?_, fun j h1 h2 => ?_⟩
    · unfold Reaches
      rw [start_succ hfirst]
    · rcases Nat.lt_succ_iff_lt_or_eq.1 h2 with hji | rfl
      · exact hall j h1 hji
      · exact h.left hi hreadi hr hleft

theorem at_start (hall : ∀ j, w.first ≤ j → j < i → f j = some none) (hfirst : w.first ≤ i)
    (hlt : i < w.count) (hread : w.readable i = true) : w.At i (w.start i) := by
  induction i with
  | zero =>
    obtain hzero : w.first = 0 := le_zero.1 hfirst
    have hat : w.At w.first w.off := .first (hzero ▸ hlt) (hzero ▸ hread)
    unfold start
    rw [if_pos hzero.symm]
    rwa [hzero] at hat
  | succ i ih =>
    rcases lt_or_eq_of_le hfirst with hlt' | heq
    · have hfi : w.first ≤ i := le_of_lt_succ hlt'
      have hnone := hall i hfi (lt_succ_self i)
      have hreadi : w.readable i = true := by
        by_contra hr
        obtain ⟨r, hr⟩ := h.unreadable (eq_false_of_ne_true hr)
        rw [hnone] at hr
        cases hr
      have hat := ih (fun j h1 h2 => hall j h1 (lt_succ_of_lt h2)) hfi (lt_of_succ_lt hlt) hreadi
      rw [start_succ hfi]
      rcases h.page (lt_of_succ_lt hlt) hreadi with ⟨hf, -⟩ | ⟨-, o, hr, hleft⟩ | ⟨r, hf, -⟩
      · rw [hnone] at hf
        cases hf
      · exact .page (hat.reaches hr) hleft hlt hread
      · rw [hnone] at hf
        cases hf
    · have hat : w.At w.first w.off := .first (heq ▸ hlt) (heq ▸ hread)
      unfold start
      rw [if_pos heq.symm]
      rwa [heq] at hat

/-- **The loops end if and only if the walk does not come to a record of length 0 that it goes on
from.** -/
theorem returns_iff : scanPages f (w.count - w.first) w.first ≠ none ↔
    ∀ i o, w.At i o → ¬w.Stuck i o := by
  constructor
  · intro hne i o hat hstuck
    obtain ⟨hfirst, hlt, hread, hr, hall⟩ := h.before hat
    exact hne (scanPages_eq hfirst (by omega) hall (h.stuck hlt hread hr hstuck) nofun)
  · intro hno hnone
    obtain ⟨i, hfirst, hlt, hall, hi⟩ := of_scanPages_eq_none hnone
    have hread : w.readable i = true := by
      by_contra hr
      obtain ⟨r, hr⟩ := h.unreadable (eq_false_of_ne_true hr)
      rw [hi] at hr
      cases hr
    rcases h.page (by omega) hread with ⟨-, o, hr, hstuck⟩ | ⟨hf, -⟩ | ⟨r, hf, -⟩
    · exact hno i o ((h.at_start hall hfirst (by omega) hread).reaches hr) hstuck
    · rw [hi] at hf
      cases hf
    · rw [hi] at hf
      cases hf

theorem returns_iff_of_first (hfirst : w.first = 0) :
    scanPages f w.count 0 ≠ none ↔ ∀ i o, w.At i o → ¬w.Stuck i o := by
  have hiff := h.returns_iff
  rwa [hfirst, Nat.sub_zero] at hiff

end Follows

end Walk

/-! ## The pages of a walk -/

section Pages

variable {w : Walk} {i : Nat} {α β σ γ : Type}

/-- The step `x` does what the verdict says; `g` of its result is the result of the function. -/
def Verdict.Agrees (g : α → Option β) (x : Except α σ) : Verdict → Prop
  | .go => ∃ s, x = .ok s
  | .leave => ∃ r, x = .error r ∧ g r = none
  | .stop => ∃ r b, x = .error r ∧ g r = some b

def Walk.PageEnds (w : Walk) (i : Nat) (f : Option (Option β)) : Prop :=
  (f = none ∧ ∃ o, w.Reaches i o ∧ w.Stuck i o) ∨
    (f = some none ∧ ∃ o, w.Reaches i o ∧ w.Left i o) ∨
    ∃ r, f = some (some r) ∧ ∃ o, w.Reaches i o ∧ w.Stopped i o

theorem Walk.PageEnds.map {f : Option (Option β)} (g : β → γ) (h : w.PageEnds i f) :
    w.PageEnds i (f.map (Option.map g)) := by
  rcases h with ⟨rfl, h⟩ | ⟨rfl, h⟩ | ⟨r, rfl, h⟩
  · exact .inl ⟨rfl, h⟩
  · exact .inr (.inl ⟨rfl, h⟩)
  · exact .inr (.inr ⟨g r, rfl, h⟩)

theorem Walk.page_cases (g : α → Option β) (step : σ → Nat → Except α σ)
    (hstep : ∀ s o, (w.verdict i o).Agrees g (step s o))
    (hmore : ∀ o, w.more i o = true → o ≤ pageSize) (s : σ) :
    w.PageEnds i (pageResult g (scan (w.len i) (w.more i) step pageFuel s (w.start i))) := by
  have hok : ∀ s o, w.goes i o = true → ∃ s', step s o = .ok s' := by
    intro s o h
    have hagrees := hstep s o
    rwa [goes_iff.1 h] at hagrees
  have hcases : ∀ s o, w.goes i o = false →
      (w.verdict i o = .leave ∧ ∃ r, step s o = .error r ∧ g r = none) ∨
      (w.verdict i o = .stop ∧ ∃ r b, step s o = .error r ∧ g r = some b) := by
    intro s o h
    have hagrees := hstep s o
    cases hv : w.verdict i o with
    | go => rw [goes_iff.2 hv] at h; cases h
    | leave => rw [hv] at hagrees; exact .inl ⟨rfl, hagrees⟩
    | stop => rw [hv] at hagrees; exact .inr ⟨rfl, hagrees⟩
  have herr : ∀ s o, w.goes i o = false → ∃ r, step s o = .error r := by
    intro s o h
    rcases hcases s o h with ⟨-, r, hr, -⟩ | ⟨-, r, b, hr, -⟩
    · exact ⟨r, hr⟩
    · exact ⟨r, hr⟩
  have hfuel : pageSize + 1 - w.start i < pageFuel := by
    unfold pageFuel
    omega
  have hscan := scan_cases hok herr (fun o h => lt_succ_of_le (hmore o h)) hfuel s
  rcases hscan (w.len i) with
    ⟨heq, o, hr, hm, hg, hlen⟩ | ⟨s', heq, o, hr, hm⟩ | ⟨s', o, r, heq, hr, hm, hg, hstep⟩
  · exact .inl ⟨congrArg (pageResult g) heq, o, hr, hm, goes_iff.1 hg, hlen⟩
  · refine .inr (.inl ⟨congrArg (pageResult g) heq, o, hr, fun hm' => ?_⟩)
    rw [hm] at hm'
    cases hm'
  · have hf := congrArg (pageResult g) heq
    rcases hcases s' o hg with ⟨hv, r', hr', hres⟩ | ⟨hv, r', b, hr', hres⟩
    · obtain rfl : r' = r := Except.error.inj (hr'.symm.trans hstep)
      exact .inr (.inl ⟨hf.trans (congrArg some hres), o, hr, fun _ => hv⟩)
    · obtain rfl : r' = r := Except.error.inj (hr'.symm.trans hstep)
      exact .inr (.inr ⟨b, hf.trans (congrArg some hres), o, hr, hm, hv⟩)

end Pages

end ZzzOs.Fs.Ext2
