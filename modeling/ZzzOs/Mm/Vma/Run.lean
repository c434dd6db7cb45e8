import ZzzOs.Mm.Vma.Ops

/-!
# Runs of calls on the areas of an address space

The list of areas refines a partial function from addresses to flags: `vma_add` sets an empty
range, `vma_delete` erases one, `vma_protect` overwrites one that is mapped throughout
(`areas_refine`). The three refuse the empty range.
-/

namespace ZzzOs.Mm.Vma

open Nat List Lib

variable {grant : Nat → Bool} {s s' : VmaList} {l l' before rest : List Vma} {v : Vma}
  {x c start fin len : Nat} {fl : Pgprot} {r : Bool × VmaList}

/-! ## Splitting -/

/-- What a loop that splits at `c` comes to: nothing to split, no memory for the second half, or
one area less that reaches over `c`. -/
inductive SplitAt (grant : Nat → Bool) (c : Nat) (s : VmaList) : Bool × VmaList → Prop
  | cut (h : spans.CutAt c s.list) : SplitAt grant c s (true, s)
  | refused (h : ¬ spans.CutAt c s.list) (hg : grant s.requests = false) :
    SplitAt grant c s (false, { s with requests := s.requests + 1 })
  | done {l' : List Vma} (h : ¬ spans.CutAt c s.list) (hg : grant s.requests = true)
    (hr : Refined c s.list l') (hc : spans.CutAt c l') :
    SplitAt grant c s (true, ⟨l', s.requests + 1⟩)

theorem SplitAt.refined (h : SplitAt grant c s r)
    (ho : spans.Ordered s.list) : Refined c s.list r.2.list := by
  cases h with
  | cut | refused => exact Refined.refl ho c
  | done _ _ hr _ => exact hr

theorem SplitAt.cutAt (h : SplitAt grant c s (true, s')) : spans.CutAt c s'.list := by
  cases h with
  | cut h => exact h
  | done _ _ _ hc => exact hc

theorem cutAt_of_between (h : spans.Ordered (before ++ v :: rest)) (h1 : v.start < c)
    (h2 : c < v.fin) : spans.CutAt c (before ++ { v with fin := c } :: ⟨c, v.fin, v.flags⟩ :: rest) := by
  obtain ⟨-, hv, hbv⟩ := Spans.ordered_append.1 h
  obtain ⟨-, hvr, -⟩ := ordered_cons_iff.1 hv
  intro u hu
  simp only [mem_append, mem_cons] at hu
  rcases hu with hu | rfl | rfl | hu
  · have : u.fin ≤ v.start := hbv u hu v (mem_cons_self ..)
    exact .inl (show u.fin ≤ c by omega)
  · exact .inl le_rfl
  · exact .inr le_rfl
  · exact .inr (h2.le.trans (hvr u hu))

theorem split_spec (ho : spans.Ordered s.list) (he : s.list = before ++ v :: rest)
    (h1 : v.start < c) (h2 : c < v.fin) : SplitAt grant c s (s.split grant before v rest c) := by
  have hno : ¬ spans.CutAt c s.list := by
    intro h
    have : v.fin ≤ c ∨ c ≤ v.start := h v (by rw [he]; simp)
    omega
  unfold VmaList.split VmaList.create
  rw [if_neg (by omega)]
  cases hg : grant s.requests with
  | false => exact .refused hno hg
  | true =>
    rw [he] at ho
    exact .done hno hg (by rw [he]; exact refined_split ho h1 h2) (cutAt_of_between ho h1 h2)

/-- An ordered list with nothing over `c` among its first areas, and the next one above. -/
theorem cutAt_above (ho : spans.Ordered (before ++ v :: rest)) (hb : ∀ u ∈ before, u.fin ≤ c)
    (hv : c ≤ v.start) : spans.CutAt c (before ++ v :: rest) := by
  obtain ⟨-, ho, -⟩ := Spans.ordered_append.1 ho
  obtain ⟨hp, hvr, -⟩ := ordered_cons_iff.1 ho
  intro u hu
  simp only [mem_append, mem_cons] at hu
  rcases hu with hu | rfl | hu
  · exact .inl (hb u hu)
  · exact .inr hv
  · exact .inr (hv.trans (hp.le.trans (hvr u hu)))

theorem splitEnd_spec (grant : Nat → Bool) : ∀ {rest before : List Vma},
    spans.Ordered s.list → s.list = before ++ rest → (∀ u ∈ before, u.fin ≤ fin) →
    SplitAt grant fin s (s.splitEnd grant fin before rest) := by
  intro rest
  induction rest with
  | nil =>
    intro before ho he hb
    refine .cut fun u hu => .inl (hb u ?_)
    rwa [he, append_nil] at hu
  | cons v rest ih =>
    intro before ho he hb
    unfold VmaList.splitEnd
    split
    · rename_i hv
      exact ih ho (by rw [he]; simp) (forall_mem_append.2 ⟨hb, forall_mem_singleton.2 hv⟩)
    · split_ifs with h2
      · exact split_spec ho he h2 (by omega)
      · refine .cut ?_
        rw [he] at ho ⊢
        exact cutAt_above ho hb (by omega)

theorem splitStart_eq (grant : Nat → Bool) (hsf : start < fin) (rest before : List Vma) :
    s.splitStart grant start fin before rest = s.splitEnd grant start before rest := by
  induction rest generalizing before with
  | nil => rfl
  | cons v rest ih =>
    unfold VmaList.splitStart VmaList.splitEnd
    rw [ih]
    by_cases hv : fin ≤ v.start
    · rw [if_pos hv, if_neg (show ¬ v.start < start by omega)]
    · rw [if_neg hv]

def SplitsGranted (grant : Nat → Bool) (s : VmaList) (start fin : Nat) : Prop :=
  (¬ spans.CutAt start s.list → grant s.requests = true) ∧
    (¬ spans.CutAt fin s.list →
      grant (if spans.CutAt start s.list then s.requests else s.requests + 1) = true)

/-- Both loops: the list was refined twice, and is cut at both ends when they succeed. -/
structure SplitTwice (grant : Nat → Bool) (start fin : Nat) (s : VmaList) (r : Bool × VmaList) :
    Prop where
  refined : ∃ l₁, Refined start s.list l₁ ∧ Refined fin l₁ r.2.list
  cut : r.1 = true → spans.CutAt start r.2.list ∧ spans.CutAt fin r.2.list
  granted : r.1 = true ↔ SplitsGranted grant s start fin

theorem SplitAt.granted (h : SplitAt grant c s r) :
    (r.1 = true ↔ (¬ spans.CutAt c s.list → grant s.requests = true)) ∧
      (r.1 = true → r.2.requests = if spans.CutAt c s.list then s.requests else s.requests + 1) := by
  cases h with
  | cut h => exact ⟨⟨fun _ hno => absurd h hno, fun _ => rfl⟩, fun _ => (if_pos h).symm⟩
  | refused h hg =>
    refine ⟨⟨nofun, fun hall => ?_⟩, nofun⟩
    have := hall h
    rw [hg] at this
    cases this
  | done h hg => exact ⟨⟨fun _ _ => hg, fun _ => rfl⟩, fun _ => (if_neg h).symm⟩

theorem splitRange_spec (grant : Nat → Bool) (ho : spans.Ordered s.list) (hsf : start < fin) :
    SplitTwice grant start fin s (s.splitRange grant start fin) := by
  have h₁ : SplitAt grant start s (s.splitEnd grant start [] s.list) :=
    splitEnd_spec grant ho rfl fun _ => nofun
  unfold VmaList.splitRange
  rw [splitStart_eq grant hsf]
  generalize s.splitEnd grant start [] s.list = r₁ at h₁
  obtain ⟨b, s₁⟩ := r₁
  have hr₁ := h₁.refined ho
  obtain ⟨hg₁, hn₁⟩ := h₁.granted
  cases b with
  | false =>
    refine ⟨⟨_, hr₁, Refined.refl hr₁.ordered fin⟩, nofun, nofun, fun hg => ?_⟩
    exact hg₁.2 hg.1
  | true =>
    dsimp only
    have h₂ := splitEnd_spec grant hr₁.ordered rfl
      (show ∀ u ∈ ([] : List Vma), u.fin ≤ fin from nofun)
    generalize s₁.splitEnd grant fin [] s₁.list = r₂ at h₂
    have hr₂ := h₂.refined hr₁.ordered
    refine ⟨⟨_, hr₁, hr₂⟩, fun hb => ?_, ?_⟩
    · obtain ⟨b, s₂⟩ := r₂
      obtain rfl : b = true := hb
      exact ⟨hr₂.cutAt h₁.cutAt, h₂.cutAt⟩
    · have hcut : spans.CutAt fin s₁.list ↔ spans.CutAt fin s.list := hr₁.cutAt_iff ho (by omega)
      have hn : s₁.requests = if spans.CutAt start s.list then s.requests else s.requests + 1 :=
        hn₁ rfl
      rw [h₂.granted.1, hcut, hn]
      exact ⟨fun h => ⟨hg₁.1 rfl, h⟩, fun h => h.2⟩

theorem splitsGranted_of_all (hg : ∀ n, grant n = true) : SplitsGranted grant s start fin :=
  ⟨fun _ => hg _, fun _ => hg _⟩

theorem SplitTwice.same (h : SplitTwice grant start fin s r) (x : Nat) :
    spans.get r.2.list x = spans.get s.list x := by
  obtain ⟨l₁, h₁, h₂⟩ := h.refined
  rw [h₂.same, h₁.same]

/-! ## The abstract function -/

/-- A call on the areas of one address space. -/
inductive Op where
  | add (start len : Nat) (flags : Pgprot)
  | delete (start len : Nat)
  | protect (start len : Nat) (flags : Pgprot)

namespace Op

/-- Whether the call is to succeed, by the areas as a function. -/
def Succeeds (f : Nat → Option Pgprot) : Op → Prop
  | add start len _ => 0 < len ∧ ∀ x, start ≤ x → x < start + len → f x = none
  | delete _ len => 0 < len
  | protect start len _ => 0 < len ∧ ∀ x, start ≤ x → x < start + len → (f x).isSome

/-- The function after a call that succeeds. -/
def effect (f : Nat → Option Pgprot) : Op → Nat → Option Pgprot
  | add start len fl, x => if start ≤ x ∧ x < start + len then some fl else f x
  | delete start len, x => if start ≤ x ∧ x < start + len then none else f x
  | protect start len fl, x => if start ≤ x ∧ x < start + len then some fl else f x

def Valid : Op → Prop
  | add start len fl => start + len < 2 ^ 64 ∧ fl ≠ 0
  | delete start len => start + len < 2 ^ 64
  | protect start len fl => start + len < 2 ^ 64 ∧ fl ≠ 0

/-- The call on the list. -/
def run (grant : Nat → Bool) (s : VmaList) : Op → Option (Int × VmaList)
  | add start len fl => s.add grant start len fl
  | delete start len => some (s.delete grant start len)
  | protect start len fl => some (s.protect grant start len fl)

end Op

/-- A call as the function has it: it returns zero or an error, and on an error nothing changes. -/
def Follows (f f' : Nat → Option Pgprot) (op : Op) (ret : Int) : Prop :=
  (ret = 0 ∧ op.Succeeds f ∧ f' = op.effect f) ∨ (ret < 0 ∧ ¬ op.Succeeds f ∧ f' = f)

/-- A sequence of calls with what each returned. -/
inductive Evolves : (Nat → Option Pgprot) → List (Op × Int) → (Nat → Option Pgprot) → Prop
  | nil {f} : Evolves f [] f
  | cons {f f' f'' op ret calls} (h : Follows f f' op ret) (hr : Evolves f' calls f'') :
    Evolves f ((op, ret) :: calls) f''

def runOps (grant : Nat → Bool) (s : VmaList) : List Op → Option (List Int × VmaList)
  | [] => some ([], s)
  | op :: ops =>
    match op.run grant s with
    | none => none
    | some (ret, s) => (runOps grant s ops).map fun (rets, s) => (ret :: rets, s)

/-! ## One call -/

def StepOk (grant : Nat → Bool) (s : VmaList) (op : Op) : Prop :=
  ∃ ret s', op.run grant s = some (ret, s') ∧ Ok s'.list ∧
    Follows (spans.get s.list) (spans.get s'.list) op ret

/-- What `vma_add` of a range comes to: the range meets an area, there is no memory for the node,
or the range has its flags. -/
theorem add_spec (grant : Nat → Bool) (h : Ok s.list) (hw : start + len < 2 ^ 64) (hlen : 0 < len)
    (hf : fl ≠ 0) :
    ((∃ v ∈ s.list, v.start < start + len ∧ start < v.fin) ∧
        ((∃ n, s.add grant start len fl = some (-efault, ⟨s.list, n⟩)) ∨
          grant s.requests = false ∧ s.add grant start len fl = none)) ∨
      (∀ v ∈ s.list, v.fin ≤ start ∨ start + len ≤ v.start) ∧
        (grant s.requests = false ∧ s.add grant start len fl = none ∨
          grant s.requests = true ∧ ∃ l', s.add grant start len fl = some (0, ⟨l', s.requests + 1⟩) ∧
            Ok l' ∧ ∀ x, spans.get l' x =
              if start ≤ x ∧ x < start + len then some fl else spans.get s.list x) := by
  unfold VmaList.add
  rw [if_neg (by omega)]
  by_cases hfind : (find s.list start).isSome
  · -- the range meets the area at its start
    rw [if_pos hfind]
    obtain ⟨fl', hfl'⟩ := Option.isSome_iff_exists.1 ((find_eq h).1 hfind)
    obtain ⟨v, hv, hc, -⟩ := (Spans.get_eq_some h.ordered).1 hfl'
    have hc : v.start ≤ start ∧ start < v.fin := hc
    exact .inl ⟨⟨v, hv, by omega, hc.2⟩, .inl ⟨s.requests, rfl⟩⟩
  rw [if_neg hfind, mod_eq_of_lt hw]
  unfold VmaList.create
  have hins := insert_spec ⟨start, start + len, fl⟩ h (by show start < start + len; omega) hf
  cases hg : grant s.requests with
  | false =>
    rcases hins with ⟨-, v, hv, h1, h2⟩ | ⟨l', -, -, hapart, -⟩
    · exact .inl ⟨⟨v, hv, h1, h2⟩, .inr ⟨rfl, rfl⟩⟩
    · exact .inr ⟨hapart, .inl ⟨rfl, rfl⟩⟩
  | true =>
    rcases hins with ⟨he, v, hv, h1, h2⟩ | ⟨l', he, hok, hapart, hget⟩
    · exact .inl ⟨⟨v, hv, h1, h2⟩, .inl ⟨s.requests + 1, by rw [if_pos rfl]; dsimp only; rw [he]⟩⟩
    · exact .inr ⟨hapart, .inr ⟨rfl, l', by rw [if_pos rfl]; dsimp only; rw [he], hok, hget⟩⟩

theorem add_step (hg : ∀ n, grant n = true) (h : Ok s.list) (hw : start + len < 2 ^ 64)
    (hf : fl ≠ 0) : StepOk grant s (.add start len fl) := by
  rcases Nat.eq_zero_or_pos len with rfl | hlen
  · refine ⟨-einval, s, rfl, h, .inr ⟨by decide, ?_, rfl⟩⟩
    rintro ⟨hpos, -⟩
    exact absurd hpos (by decide)
  rcases add_spec grant h hw hlen hf with ⟨⟨v, hv, h1, h2⟩, ⟨n, he⟩ | ⟨hno, -⟩⟩ |
    ⟨hapart, ⟨hno, -⟩ | ⟨-, l', he, hok, hget⟩⟩
  · refine ⟨_, _, he, h, .inr ⟨by decide, ?_, rfl⟩⟩
    rintro ⟨-, hfree⟩
    have hp : v.start < v.fin := h.ordered.proper v hv
    have := h.ordered.get_of_mem hv
      (by show v.start ≤ max start v.start ∧ max start v.start < v.fin; omega)
    rw [hfree _ (by omega) (by omega)] at this
    cases this
  · rw [hg] at hno
    cases hno
  · rw [hg] at hno
    cases hno
  · refine ⟨_, _, he, hok, .inl ⟨rfl, ⟨hlen, fun x hx hx' => ?_⟩, funext hget⟩⟩
    refine Spans.get_eq_none.2 fun v hv hc => ?_
    have h1 := hapart v hv
    have hc : v.start ≤ x ∧ x < v.fin := hc
    omega

theorem delete_spec (grant : Nat → Bool) (h : Ok s.list) (hw : start + len < 2 ^ 64) (hlen : 0 < len) :
    (SplitsGranted grant s start (start + len) ∧ ∃ s', s.delete grant start len = (0, s') ∧
        Ok s'.list ∧ ∀ x, spans.get s'.list x =
          if start ≤ x ∧ x < start + len then none else spans.get s.list x) ∨
      ¬ SplitsGranted grant s start (start + len) ∧ ∃ s', s.delete grant start len = (-enomem, s') ∧
        ∀ x, spans.get s'.list x = spans.get s.list x := by
  have hs := splitRange_spec grant h.ordered (show start < start + len by omega)
  unfold VmaList.delete
  rw [mod_eq_of_lt hw]
  rw [if_neg (by omega)]
  generalize s.splitRange grant start (start + len) = r at hs
  obtain ⟨b, s'⟩ := r
  obtain ⟨l₁, hr₁, hr₂⟩ := hs.refined
  cases b with
  | false => exact .inr ⟨mt hs.granted.2 nofun, s', rfl, hs.same⟩
  | true =>
    obtain ⟨hc₁, hc₂⟩ := hs.cut rfl
    refine .inl ⟨hs.granted.1 rfl, _, rfl, removeRange_ok h hr₁ hr₂ (by omega), fun x => ?_⟩
    rw [get_removeRange hr₂.ordered hc₁ hc₂, hs.same]

section

variable (hg : ∀ n, grant n = true) (h : Ok s.list)

include hg h

theorem delete_step (hw : start + len < 2 ^ 64) : StepOk grant s (.delete start len) := by
  rcases Nat.eq_zero_or_pos len with rfl | hlen
  · exact ⟨-einval, s, rfl, h, .inr ⟨by decide, Nat.lt_irrefl 0, rfl⟩⟩
  rcases delete_spec grant h hw hlen with ⟨-, s', he, hok, hget⟩ | ⟨hno, -⟩
  · exact ⟨0, s', congrArg some he, hok, .inl ⟨rfl, hlen, funext hget⟩⟩
  · exact absurd (splitsGranted_of_all hg) hno

theorem protect_step (hw : start + len < 2 ^ 64)
    (hf : fl ≠ 0) : StepOk grant s (.protect start len fl) := by
  unfold StepOk Op.run VmaList.protect
  dsimp only
  rw [mod_eq_of_lt hw]
  by_cases hlen : len = 0
  · rw [if_pos (.inl hlen)]
    exact ⟨_, s, rfl, h, .inr ⟨by decide, by simp [Op.Succeeds, hlen], rfl⟩⟩
  rw [if_neg (by omega)]
  have hmap : rangeIsMapped s.list start (start + len) = true ↔
      ∀ x, start ≤ x → x < start + len → (spans.get s.list x).isSome := by
    unfold rangeIsMapped
    rw [if_neg (by omega)]
    exact mappedFrom_iff h.ordered (by omega)
  by_cases hm : rangeIsMapped s.list start (start + len) = false
  · rw [if_pos hm]
    refine ⟨_, s, rfl, h, .inr ⟨by decide, ?_, rfl⟩⟩
    rintro ⟨-, hall⟩
    rw [hmap.2 hall] at hm
    cases hm
  rw [if_neg hm]
  have hall := hmap.1 (by simpa using hm)
  have hs := splitRange_spec grant h.ordered (show start < start + len by omega)
  generalize s.splitRange grant start (start + len) = r at hs
  obtain ⟨b, s'⟩ := r
  obtain rfl : b = true := hs.granted.2 (splitsGranted_of_all hg)
  obtain ⟨l₁, hr₁, hr₂⟩ := hs.refined
  obtain ⟨hc₁, hc₂⟩ := hs.cut rfl
  obtain ⟨hord, hflags, hget⟩ := setFlags_spec fl hr₂.ordered hc₁ hc₂
  obtain ⟨hok, hsame⟩ := mergeAll_spec hord fun w hw => by
    rcases hflags w hw with he | ⟨v, hv, he⟩
    · rwa [he]
    · obtain ⟨u, hu, -, -, hu'⟩ := hr₂.within v hv
      obtain ⟨u₁, hu₁, -, -, hu₁'⟩ := hr₁.within u hu
      rw [he, hu', hu₁']
      exact h.marked u₁ hu₁
  refine ⟨_, _, rfl, hok, .inl ⟨rfl, ⟨pos_of_ne_zero hlen, hall⟩, funext fun x => ?_⟩⟩
  rw [hsame, hget, hs.same]
  by_cases hx : start ≤ x ∧ x < start + len
  · obtain ⟨a, ha⟩ := Option.isSome_iff_exists.1 (hall x hx.1 hx.2)
    rw [if_pos hx, ha]
    exact (if_pos hx).symm
  · rw [if_neg hx]
    exact (if_neg hx).symm

theorem op_step {op : Op} (hv : op.Valid) : StepOk grant s op := by
  cases op with
  | add start len fl => exact add_step hg h hv.1 hv.2
  | delete start len => exact delete_step hg h hv
  | protect start len fl => exact protect_step hg h hv.1 hv.2

end

/-! ## Runs -/

/-- **The list refines the function.** After any calls the list is ordered, without empty or overlapping
areas or neighbours that could be one, and the calls changed what the function says. -/
theorem areas_refine (hg : ∀ n, grant n = true) (ops : List Op) (hv : ∀ op ∈ ops, op.Valid)
    (h : Ok s.list) :
    ∃ rets s', runOps grant s ops = some (rets, s') ∧ Ok s'.list ∧
      Evolves (spans.get s.list) (ops.zip rets) (spans.get s'.list) ∧ rets.length = ops.length := by
  induction ops generalizing s with
  | nil => exact ⟨[], s, rfl, h, .nil, rfl⟩
  | cons op ops ih =>
    obtain ⟨ret, s₁, he, hok, hf⟩ := op_step hg h (hv op (List.mem_cons_self ..))
    obtain ⟨rets, s₂, he₂, hok₂, hev, hl⟩ := ih (fun o ho => hv o (List.mem_cons_of_mem _ ho)) hok
    refine ⟨ret :: rets, s₂, ?_, hok₂, .cons hf hev, congrArg (· + 1) hl⟩
    unfold runOps
    rw [he]
    dsimp only
    rw [he₂]
    rfl

/-- A range of two pages is added, then its first page is made read-only. -/
theorem areas_refine_protect :
    ∃ rets s', runOps (fun _ => true) ⟨[], 0⟩ [.add 0x1000 0x2000 3, .protect 0x1000 0x1000 1] =
        some (rets, s') ∧ Ok s'.list ∧
      Evolves (spans.get []) ([.add 0x1000 0x2000 3, .protect 0x1000 0x1000 1].zip rets)
        (spans.get s'.list) ∧ rets.length = 2 := by
  refine areas_refine (fun _ => rfl) _ ?_ ⟨Spans.Ordered.nil, nofun, nofun⟩
  intro op hop
  simp only [List.mem_cons, List.not_mem_nil, or_false] at hop
  rcases hop with rfl | rfl
  · exact ⟨by decide, by decide⟩
  · exact ⟨by decide, by decide⟩

/-- The empty range meets no area, and `vma_add` refuses it. -/
theorem add_empty_refused : Op.run (fun _ => true) ⟨[], 0⟩ (.add 0x1000 0 1) = some (-22, ⟨[], 0⟩) ∧
    (Op.add 0x1000 0 1).Valid ∧ (∀ v ∈ ([] : List Vma), v.fin ≤ 0x1000 ∨ 0x1000 + 0 ≤ v.start) ∧
    ∀ x, 0x1000 ≤ x → x < 0x1000 + 0 → spans.get [] x = none :=
  ⟨rfl, ⟨by decide, by decide⟩, nofun, fun _ _ _ => rfl⟩

end ZzzOs.Mm.Vma
