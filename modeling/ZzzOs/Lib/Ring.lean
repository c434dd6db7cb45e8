import Mathlib.Data.List.Nodup
import ZzzOs.Lib.Update

/-!
# Doubly linked rings

`Path l a ns b`: from `a` the next pointers lead through `ns` to `b`, and the previous pointers lead
back; a ring is a path from its head to its head. `Rings` is a family of disjoint rings, one for each
head, where every other node points to itself.

Adding a node that is on no ring and taking out a node keep the family (`Rings.addTail`,
`Rings.unlink`). Adding a node that is already linked leaves no family at all (`Rings.not_addTail`).
-/

namespace ZzzOs.Lib

open Function List

/-- The pointers of all nodes. -/
structure Links (α : Type*) where
  next : α → α
  prev : α → α

variable {α ι : Type*} {c : α}

namespace Links

variable [DecidableEq α] (l : Links α)

/-- Put `n` between `p` and `x`. -/
def insert (n p x : α) : Links α where
  next := update (update l.next p n) n x
  prev := update (update l.prev n p) x n

/-- Put `n` before the head `h`. -/
def addTail (h n : α) : Links α := l.insert n (l.prev h) h

/-- Take `n` out and let it point to itself. -/
def unlink (n : α) : Links α where
  next := update (update l.next (l.prev n) (l.next n)) n n
  prev := update (update l.prev (l.next n) (l.prev n)) n n

theorem insert_next (n p x a : α) :
    (l.insert n p x).next a = update (update l.next p n) n x a := rfl

theorem insert_prev (n p x a : α) :
    (l.insert n p x).prev a = update (update l.prev n p) x n a := rfl

theorem unlink_next (n a : α) : (l.unlink n).next a =
    update (update l.next (l.prev n) (l.next n)) n n a := rfl

theorem unlink_prev (n a : α) : (l.unlink n).prev a =
    update (update l.prev (l.next n) (l.prev n)) n n a := rfl

end Links

/-! ## Paths -/

/-- From `a` through `ns` to `b`, forwards and backwards. -/
def Path (l : Links α) : α → List α → α → Prop
  | a, [], b => l.next a = b ∧ l.prev b = a
  | a, x :: ns, b => l.next a = x ∧ l.prev x = a ∧ Path l x ns b

namespace Path

variable {l l' : Links α} {a b n x : α} {ns ms : List α}

@[simp] theorem nil_iff : Path l a [] b ↔ l.next a = b ∧ l.prev b = a := Iff.rfl

@[simp] theorem cons_iff : Path l a (x :: ns) b ↔ l.next a = x ∧ l.prev x = a ∧ Path l x ns b :=
  Iff.rfl

theorem append_iff : Path l a (ns ++ x :: ms) b ↔ Path l a ns x ∧ Path l x ms b := by
  induction ns generalizing a with
  | nil => exact and_assoc.symm
  | cons y ns ih =>
    rw [cons_append, cons_iff, cons_iff, ih, and_assoc, and_assoc]

section

variable (h : Path l a ns b)

include h

theorem congr (hnext : ∀ c ∈ a :: ns, l'.next c = l.next c)
    (hprev : ∀ c ∈ b :: ns, l'.prev c = l.prev c) : Path l' a ns b := by
  induction ns generalizing a with
  | nil =>
    rw [nil_iff, hnext a mem_cons_self, hprev b mem_cons_self]
    exact h
  | cons x ns ih =>
    obtain ⟨h1, h2, h3⟩ := h
    refine ⟨?_, ?_, ih h3 (fun c hc => hnext c (mem_cons_of_mem _ hc)) fun c hc => ?_⟩
    · rw [hnext a mem_cons_self, h1]
    · rw [hprev x (by simp), h2]
    · refine hprev c ?_
      rcases mem_cons.1 hc with rfl | hc
      · exact mem_cons_self
      · exact mem_cons_of_mem _ (mem_cons_of_mem _ hc)

theorem prev_mem : l.prev b ∈ a :: ns := by
  induction ns generalizing a with
  | nil =>
    rw [h.2]
    exact mem_cons_self
  | cons x ns ih => exact mem_cons_of_mem _ (ih h.2.2)

theorem next_mem : l.next a ∈ b :: ns := by
  cases ns with
  | nil =>
    rw [h.1]
    exact mem_cons_self
  | cons x ns =>
    rw [h.1]
    exact mem_cons_of_mem _ mem_cons_self

theorem prev_next (hc : c ∈ a :: ns) : l.prev (l.next c) = c := by
  induction ns generalizing a with
  | nil =>
    obtain rfl : c = a := by simpa using hc
    rw [h.1, h.2]
  | cons x ns ih =>
    rcases mem_cons.1 hc with rfl | hc
    · rw [h.1, h.2.1]
    · exact ih h.2.2 hc

theorem next_prev (hc : c ∈ b :: ns) : l.next (l.prev c) = c := by
  induction ns generalizing a with
  | nil =>
    obtain rfl : c = b := by simpa using hc
    rw [h.2, h.1]
  | cons x ns ih =>
    rcases mem_cons.1 hc with rfl | hc'
    · exact ih h.2.2 mem_cons_self
    · rcases mem_cons.1 hc' with rfl | hc''
      · rw [h.2.1, h.1]
      · exact ih h.2.2 (mem_cons_of_mem _ hc'')

end

variable [DecidableEq α]

theorem insert (h : Path l a ns b) (hnd : (a :: ns).Nodup) (hb : b ∉ ns) (hn : n ∉ a :: ns)
    (hnb : n ≠ b) : Path (l.insert n (l.prev b) b) a (ns ++ [n]) b := by
  induction ns generalizing a with
  | nil =>
    obtain ⟨h1, h2⟩ := h
    have han : a ≠ n := fun he => hn (by simp [he])
    simp [Links.insert, h2, update_of_ne han, update_of_ne hnb]
  | cons x ns ih =>
    obtain ⟨h1, h2, h3⟩ := h
    obtain ⟨ha, hnd'⟩ := nodup_cons.1 hnd
    have han : a ≠ n := fun he => hn (by simp [he])
    have hxn : x ≠ n := fun he => hn (by simp [he])
    have hxb : x ≠ b := fun he => hb (by simp [he])
    have hap : a ≠ l.prev b := fun he => ha (he ▸ h3.prev_mem)
    refine ⟨?_, ?_, ih h3 hnd' (fun hin => hb (mem_cons_of_mem _ hin))
      (fun hin => hn (mem_cons_of_mem _ hin))⟩
    · rw [Links.insert_next, update_of_ne han, update_of_ne hap, h1]
    · rw [Links.insert_prev, update_of_ne hxb, update_of_ne hxn, h2]

theorem unlink (h : Path l a ns n) (h' : Path l n ms b) (hnd : (a :: (ns ++ n :: ms)).Nodup)
    (hb : b ∉ ns ++ n :: ms) : Path (l.unlink n) a (ns ++ ms) b := by
  have hbn : b ≠ n := fun he => hb (by simp [he])
  induction ns generalizing a with
  | nil =>
    obtain ⟨h1, h2⟩ := h
    have han : a ≠ n := fun he => (nodup_cons.1 hnd).1 (by simp [he])
    cases ms with
    | nil =>
      obtain ⟨h3, h4⟩ := h'
      simp [Links.unlink, h2, h3, update_of_ne han, update_of_ne hbn]
    | cons x ms =>
      obtain ⟨h3, h4, h5⟩ := h'
      simp only [nil_append, nodup_cons, mem_cons, not_or] at hnd hb
      obtain ⟨⟨-, hax, ham⟩, ⟨hnx, hnm⟩, hxm, -⟩ := hnd
      refine ⟨?_, ?_, h5.congr (fun c hc => ?_) fun c hc => ?_⟩
      · simp [Links.unlink, h2, h3, update_of_ne han]
      · simp [Links.unlink, h2, h3, update_of_ne (Ne.symm hnx)]
      · have hc' : c ≠ n ∧ c ≠ a := by
          constructor <;> rintro rfl <;> simp only [mem_cons] at hc <;> tauto
        rw [Links.unlink_next, update_of_ne hc'.1, h2, update_of_ne hc'.2]
      · have hc' : c ≠ n ∧ c ≠ x := by
          constructor <;> rintro rfl <;> simp only [mem_cons] at hc <;> tauto
        rw [Links.unlink_prev, update_of_ne hc'.1, h3, update_of_ne hc'.2]
  | cons y ns ih =>
    obtain ⟨h1, h2, h3⟩ := h
    obtain ⟨ha, hnd'⟩ := nodup_cons.1 hnd
    have hprev := h3.prev_mem
    have hnext := h'.next_mem
    have hap : a ≠ l.prev n := by
      rintro he
      rw [← he] at hprev
      simp only [cons_append, mem_cons, mem_append] at ha hprev
      tauto
    have han : a ≠ n := by
      rintro rfl
      simp at ha
    have hyn : y ≠ n := by
      rintro rfl
      simp at hnd'
    have hyx : y ≠ l.next n := by
      rintro he
      rw [← he] at hnext
      simp only [cons_append, mem_cons, mem_append, nodup_cons] at hb hnext hnd'
      rcases hnext with rfl | hin
      · tauto
      · tauto
    refine ⟨?_, ?_, ih h3 hnd' fun hin => hb (mem_cons_of_mem _ hin)⟩
    · rw [Links.unlink_next, update_of_ne han, update_of_ne hap, h1]
    · rw [Links.unlink_prev, update_of_ne hyn, update_of_ne hyx, h2]

end Path

/-! ## Families of rings -/

/-- Disjoint rings, one for each head; whatever is on none of them points to itself. -/
structure Rings (l : Links α) (head : ι → α) (L : ι → List α) : Prop where
  path : ∀ i, Path l (head i) (L i) (head i)
  nodup : ∀ i, (L i).Nodup
  disjoint : ∀ {i j a}, a ∈ L i → a ∈ L j → i = j
  head_inj : Function.Injective head
  head_not : ∀ i j, head i ∉ L j
  loose : ∀ a, (∀ i, a ≠ head i) → (∀ i, a ∉ L i) → l.next a = a ∧ l.prev a = a

namespace Rings

variable {l l' : Links α} {head : ι → α} {L : ι → List α} {i j : ι} {n : α}

section

variable (h : Rings l head L)

include h

theorem nodup_cons (i : ι) : (head i :: L i).Nodup :=
  List.nodup_cons.2 ⟨h.head_not i i, h.nodup i⟩

theorem inverse (a : α) : l.prev (l.next a) = a ∧ l.next (l.prev a) = a := by
  by_cases hon : ∃ i, a ∈ head i :: L i
  · obtain ⟨i, hi⟩ := hon
    exact ⟨(h.path i).prev_next hi, (h.path i).next_prev hi⟩
  · push Not at hon
    simp only [mem_cons, not_or] at hon
    obtain ⟨h1, h2⟩ := h.loose a (fun i => (hon i).1) fun i => (hon i).2
    rw [h1, h2]
    exact ⟨rfl, h1⟩

theorem next_eq_self_iff (hn : ∀ i, n ≠ head i) : l.next n = n ↔ ∀ i, n ∉ L i := by
  constructor
  · intro hself i hi
    obtain ⟨ns, ms, hL⟩ := append_of_mem hi
    have hpath := h.path i
    have hnd := h.nodup i
    rw [hL] at hpath hnd
    have hnext := (Path.append_iff.1 hpath).2.next_mem
    rw [hself] at hnext
    rcases mem_cons.1 hnext with he | hin
    · exact hn i he
    · exact (List.nodup_cons.1 (List.nodup_append.1 hnd).2.1).1 hin
  · exact fun hout => (h.loose n hn hout).1

theorem path_congr (hj : ∀ c ∈ head j :: L j,
    l'.next c = l.next c ∧ l'.prev c = l.prev c) : Path l' (head j) (L j) (head j) :=
  (h.path j).congr (fun c hc => (hj c hc).1) fun c hc => (hj c hc).2

theorem not_mem_other (hij : j ≠ i) (hc : c ∈ head j :: L j) : c ∉ head i :: L i := by
  intro hc'
  rcases mem_cons.1 hc with rfl | hc
  · rcases mem_cons.1 hc' with he | hc'
    · exact hij (h.head_inj he)
    · exact h.head_not j i hc'
  · rcases mem_cons.1 hc' with rfl | hc'
    · exact h.head_not i j hc
    · exact hij (h.disjoint hc hc')

end

variable [DecidableEq α]

/-- A node that is linked and added once more leaves no family of rings. -/
theorem not_addTail (h : Rings l head L) (hn : n ∈ L j) (L' : ι → List α) :
    ¬ Rings (l.addTail (head i) n) head L' := by
  intro h'
  have hnk : ∀ k, n ≠ head k := fun k he => h.head_not k j (he ▸ hn)
  have hnn : l.next n ≠ n := fun he => (h.next_eq_self_iff hnk).1 he j hn
  rcases eq_or_ne n (l.prev (head i)) with he | hne
  · -- the last of the ring: its previous pointer now leads to itself
    have := (h'.inverse n).2
    simp [Links.addTail, Links.insert, ← he, update_of_ne (hnk i)] at this
    exact hnk i this.symm
  · -- otherwise the node before it still points to it, but is not pointed back to
    have hw := (h.inverse n).2
    have hwn : l.prev n ≠ n := by
      intro he
      rw [he] at hw
      exact hnn hw
    have hwp : l.prev n ≠ l.prev (head i) := by
      intro he
      rw [he, (h.inverse (head i)).2] at hw
      exact hnk i hw.symm
    have := (h'.inverse (l.prev n)).1
    simp [Links.addTail, Links.insert, update_of_ne hwn, update_of_ne hwp, hw,
      update_of_ne (hnk i)] at this
    exact hwp this.symm

variable [DecidableEq ι]

theorem addTail (h : Rings l head L) (hhead : ∀ k, n ≠ head k) (hout : ∀ k, n ∉ L k) :
    Rings (l.addTail (head i) n) head (update L i (L i ++ [n])) := by
  have hprev : l.prev (head i) ∈ head i :: L i := (h.path i).prev_mem
  have hsame : ∀ c, c ≠ n → c ∉ head i :: L i →
      (l.addTail (head i) n).next c = l.next c ∧ (l.addTail (head i) n).prev c = l.prev c := by
    intro c hcn hc
    have hcp : c ≠ l.prev (head i) := fun he => hc (he ▸ hprev)
    have hch : c ≠ head i := fun he => hc (he ▸ mem_cons_self)
    simp [Links.addTail, Links.insert, update_of_ne hcn, update_of_ne hcp, update_of_ne hch]
  refine ⟨fun j => ?_, fun j => ?_, ?_, h.head_inj, fun j k => ?_, fun a ha hL => ?_⟩
  · refine update_cases (fun hij => ?_) fun hij => ?_
    · subst hij
      refine (h.path j).insert (h.nodup_cons j) (h.head_not j j) ?_ (hhead j)
      exact fun hin => (mem_cons.1 hin).elim (hhead j) (hout j)
    · refine h.path_congr fun c hc => hsame c ?_ (h.not_mem_other hij hc)
      rintro rfl
      exact (mem_cons.1 hc).elim (hhead j) (hout j)
  · refine update_cases (fun _ => ?_) fun _ => h.nodup j
    exact (h.nodup i).append (nodup_singleton n) (by simpa using hout i)
  · intro j k a hj hk
    have hcases : ∀ m, a ∈ update L i (L i ++ [n]) m → a ∈ L m ∨ (a = n ∧ m = i) := by
      refine fun m => update_cases (fun hmi hm => ?_) fun _ => .inl
      rw [mem_append, mem_singleton, ← hmi] at hm
      exact hm.imp_right fun he => ⟨he, hmi⟩
    rcases hcases j hj with hjL | ⟨haj, hji⟩
    · rcases hcases k hk with hkL | ⟨hak, -⟩
      · exact h.disjoint hjL hkL
      · exact absurd (hak ▸ hjL) (hout j)
    · rcases hcases k hk with hkL | ⟨-, hki⟩
      · exact absurd (haj ▸ hkL) (hout k)
      · rw [hji, hki]
  · refine update_cases (fun _ => ?_) fun _ => h.head_not j k
    rw [mem_append, mem_singleton, not_or]
    exact ⟨h.head_not j i, (hhead j).symm⟩
  · have hai := hL i
    rw [update_self, mem_append, mem_singleton, not_or] at hai
    have hLk : ∀ k, a ∉ L k := fun k => by
      rcases eq_or_ne k i with rfl | hki
      · exact hai.1
      · simpa [update_of_ne hki] using hL k
    obtain ⟨h1, h2⟩ := hsame a hai.2 fun hin => (mem_cons.1 hin).elim (ha i) (hLk i)
    rw [h1, h2]
    exact h.loose a ha hLk

theorem unlink (h : Rings l head L) (hn : n ∈ L i) :
    Rings (l.unlink n) head (update L i ((L i).erase n)) := by
  obtain ⟨ns, ms, hL⟩ := append_of_mem hn
  have hpath := h.path i
  have hnd := h.nodup_cons i
  have hhead := h.head_not i i
  rw [hL] at hpath hnd hhead
  obtain ⟨hpath1, hpath2⟩ := Path.append_iff.1 hpath
  have hnns : n ∉ ns := fun hin =>
    (List.nodup_append.1 (List.nodup_cons.1 hnd).2).2.2 n hin n List.mem_cons_self rfl
  have herase : (L i).erase n = ns ++ ms := by
    rw [hL, erase_append_right _ hnns, erase_cons_head]
  have hprev : l.prev n ∈ head i :: L i := by
    have := hpath1.prev_mem
    rw [hL]
    simp only [mem_cons, mem_append] at this ⊢
    tauto
  have hnext : l.next n ∈ head i :: L i := by
    have := hpath2.next_mem
    rw [hL]
    simp only [mem_cons, mem_append] at this ⊢
    tauto
  have hsame : ∀ c, c ∉ head i :: L i →
      (l.unlink n).next c = l.next c ∧ (l.unlink n).prev c = l.prev c := by
    intro c hc
    have hcn : c ≠ n := fun he => hc (he ▸ mem_cons_of_mem _ hn)
    have hcp : c ≠ l.prev n := fun he => hc (he ▸ hprev)
    have hcx : c ≠ l.next n := fun he => hc (he ▸ hnext)
    simp [Links.unlink, update_of_ne hcn, update_of_ne hcp, update_of_ne hcx]
  have hsub : ∀ k a, a ∈ update L i ((L i).erase n) k → a ∈ L k := fun k a =>
    update_cases (fun hki ha => hki ▸ mem_of_mem_erase ha) fun _ => id
  refine ⟨fun j => ?_, fun j => ?_, fun hj hk => h.disjoint (hsub _ _ hj) (hsub _ _ hk),
    h.head_inj, fun j k hin => h.head_not j k (hsub _ _ hin), fun a ha hLa => ?_⟩
  · refine update_cases (fun hij => ?_) fun hij => ?_
    · rw [herase, hij]
      exact hpath1.unlink hpath2 hnd hhead
    · exact h.path_congr fun c hc => hsame c (h.not_mem_other hij hc)
  · exact update_cases (fun _ => (h.nodup i).erase n) fun _ => h.nodup j
  · rcases eq_or_ne a n with rfl | han
    · simp [Links.unlink]
    · have hLk : ∀ k, a ∉ L k := fun k => by
        have := hLa k
        rcases eq_or_ne k i with rfl | hki
        · rwa [update_self, mem_erase_of_ne han] at this
        · rwa [update_of_ne hki] at this
      obtain ⟨h1, h2⟩ := hsame a fun hin => (mem_cons.1 hin).elim (ha i) (hLk i)
      rw [h1, h2]
      exact h.loose a ha hLk

end Rings

/-! ## One ring -/

/-- The ring of one head; whatever is not on it points to itself. -/
abbrev Ring (l : Links α) (h : α) (ns : List α) : Prop := Rings l (fun _ : Unit => h) fun _ => ns

namespace Ring

variable {l : Links α} {h n : α} {ns : List α}

theorem empty : Ring ⟨id, id⟩ h [] :=
  ⟨fun _ => ⟨rfl, rfl⟩, fun _ => nodup_nil, nofun, fun _ _ _ => rfl, fun _ _ => not_mem_nil,
    fun _ _ _ => ⟨rfl, rfl⟩⟩

theorem next_head (hr : Ring l h ns) : l.next h = ns.headD h := by
  have hpath := hr.path ()
  cases ns with
  | nil | cons => exact hpath.1

variable [DecidableEq α]

theorem addTail (hr : Ring l h ns) (hh : n ≠ h) (hn : n ∉ ns) : Ring (l.addTail h n) h (ns ++ [n]) := by
  have hring := Rings.addTail (i := ()) hr (fun _ => hh) fun _ => hn
  have hns : update (fun _ => ns) () (ns ++ [n]) = fun _ : Unit => ns ++ [n] := funext fun _ => update_self ..
  rwa [hns] at hring

theorem unlink_head (hr : Ring l h (n :: ns)) : Ring (l.unlink n) h ns := by
  have hring := Rings.unlink (i := ()) hr mem_cons_self
  have hns : update (fun _ => n :: ns) () ((n :: ns).erase n) = fun _ : Unit => ns := by
    funext k
    rw [update_self, erase_cons_head]
  rwa [hns] at hring

end Ring

end ZzzOs.Lib
