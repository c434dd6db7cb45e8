import ZzzOs.Mm.Slab.System

/-!
# Runs of a cache

The invariant of a cache in use, `WInv`: the objects outside the free lists are those in the
magazines, those on their way into one, and those the clients hold; the pages the cache holds
are its slabs and the pages on their way back. Every step keeps it and none panics.
-/

namespace ZzzOs.Mm.Slabs

open Nat Function Multiset Lib List

/-! ## Sums over the CPUs -/

section Sums

variable {F G : Nat → List Nat} {k : Nat}

def total (F : Nat → List Nat) : Multiset Nat := ∑ i ∈ Finset.range maxCpus, (F i : Multiset Nat)

def others (F : Nat → List Nat) (k : Nat) : Multiset Nat :=
  ∑ i ∈ (Finset.range maxCpus).erase k, (F i : Multiset Nat)

theorem total_eq (hk : k < maxCpus) (F : Nat → List Nat) :
    total F = (F k : Multiset Nat) + others F k :=
  (Finset.add_sum_erase _ (fun i => (F i : Multiset Nat)) (Finset.mem_range.2 hk)).symm

theorem others_congr (h : ∀ i ≠ k, F i = G i) : others F k = others G k :=
  Finset.sum_congr rfl fun i hi => by rw [h i (Finset.ne_of_mem_erase hi)]

theorem coe_cons (a : Nat) (l : List Nat) :
    ((a :: l : List Nat) : Multiset Nat) = {a} + (l : Multiset Nat) := rfl

end Sums

/-! ## The invariant -/

/-- What a program counter relies on, next to a magazine. -/
def Pc.Ok (magazine : List Nat) : Pc → Prop
  | .refill target => target ≤ magSize
  | .detach target => target ≤ magSize
  | .attach target _ => target ≤ magSize
  | .freeDrainLocked _ nr => 1 ≤ nr
  | .freePages _ _ => magazine.length < magSize
  | _ => True

def Pc.load (pc : Pc) : List Nat × List Nat × List Nat := (pc.det, pc.transit, pc.toFree)

def DrainCall.Ok (d : DrainCall) : Prop :=
  (∀ cpu, d.phase = .hold cpu → cpu < maxCpus) ∧
    ∀ limit batch, d.args = some (limit, batch) → 1 ≤ batch ∧ batch ≤ limit ∧ limit ≤ magSize

namespace World

/-- The objects outside the free lists. -/
def objs (w : World) : Multiset Nat :=
  total w.s.cpu + (total (fun i => (w.pc i).transit) + (w.live : Multiset Nat))

/-- Those of them that the other CPUs have. -/
def rest (w : World) (k : Nat) : Multiset Nat :=
  others w.s.cpu k + others (fun i => (w.pc i).transit) k

theorem objs_eq (w : World) {k : Nat} (hk : k < maxCpus) :
    w.objs = (w.s.cpu k : Multiset Nat) + ((w.pc k).transit + ((w.live : Multiset Nat) + w.rest k)) := by
  rw [objs, rest, total_eq hk, total_eq hk]
  abel

end World

/-- The pages that the calls will free. -/
abbrev callPages (calls : List DrainCall) : Multiset Nat :=
  (calls.map fun d => (d.pages : Multiset Nat)).sum

structure WInv (c : KmemCache) (w : World) (fl : Nat → List Nat) (det : List Nat) : Prop where
  inv : Inv c w.s fl det w.objs
  detached : (det : Multiset Nat) = total fun i => (w.pc i).det
  magazine : ∀ i < maxCpus, (w.s.cpu i).length ≤ magSize
  limit : 1 ≤ w.s.magLimit ∧ w.s.magLimit ≤ magSize
  batch : 1 ≤ w.s.magBatch ∧ w.s.magBatch ≤ magSize
  pcs : ∀ i < maxCpus, (w.pc i).Ok (w.s.cpu i)
  calls : ∀ d ∈ w.calls, d.Ok
  pages : (w.s.listed : Multiset Nat) + det + total (fun i => (w.pc i).toFree) + callPages w.calls =
    w.pages
  nodup : w.pages.Nodup

variable {x o slab : Nat} {pages : Multiset Nat}

namespace WInv

variable {c : KmemCache} {w w' : World} {fl fl' : Nat → List Nat} {det det' : List Nat} {k : Nat}
  {pc : Pc} {d : DrainCall} {p : Phase}

theorem inv_at (h : WInv c w fl det) (hk : k < maxCpus) :
    Inv c w.s fl det ((w.s.cpu k : Multiset Nat) +
      ((w.pc k).transit + ((w.live : Multiset Nat) + w.rest k))) := by
  rw [← w.objs_eq hk]
  exact h.inv

theorem advance (h : WInv c w fl det) (hk : k < maxCpus) (hpc : w'.pc = w.pc) (hcpu : ∀ i ≠ k, w'.s.cpu i = w.s.cpu i)
    (hlim : w'.s.magLimit = w.s.magLimit ∧ w'.s.magBatch = w.s.magBatch)
    (hok : pc.Ok (w'.s.cpu k)) (hmag : (w'.s.cpu k).length ≤ magSize)
    (hinv : Inv c w'.s fl' det' ((w'.s.cpu k : Multiset Nat) +
      (pc.transit + ((w'.live : Multiset Nat) + w.rest k))))
    (hdet : (det' : Multiset Nat) + (w.pc k).det = det + pc.det)
    (hcalls : ∀ d ∈ w'.calls, d.Ok)
    (hpages : (w'.s.listed : Multiset Nat) + det' + pc.toFree + callPages w'.calls + w.pages =
      (w.s.listed : Multiset Nat) + det + (w.pc k).toFree + callPages w.calls + w'.pages)
    (hnodup : w'.pages.Nodup) : WInv c (w'.setPc k pc) fl' det' := by
  have hself : (w'.setPc k pc).pc k = pc := update_self ..
  have hother : ∀ i ≠ k, (w'.setPc k pc).pc i = w.pc i := fun i hi => by
    rw [← hpc]
    exact update_of_ne hi ..
  have hrest : (w'.setPc k pc).rest k = w.rest k := by
    show others w'.s.cpu k + others (fun i => ((w'.setPc k pc).pc i).transit) k = _
    rw [others_congr hcpu,
      others_congr (F := fun i => ((w'.setPc k pc).pc i).transit) fun i hi => by rw [hother i hi]]
    rfl
  refine { inv := ?_, detached := ?_, magazine := ?_, limit := ?_, batch := ?_, pcs := ?_,
           calls := hcalls, pages := ?_, nodup := hnodup }
  · rw [(w'.setPc k pc).objs_eq hk, hrest, hself]
    exact hinv
  · have hd := h.detached
    rw [total_eq hk] at hd ⊢
    rw [others_congr fun i hi => by rw [hother i hi], hself]
    rw [hd] at hdet
    refine add_right_cancel (b := ((w.pc k).det : Multiset Nat)) ?_
    rw [hdet]
    abel
  · intro i hi
    by_cases e : i = k
    · subst e; exact hmag
    · exact (congrArg List.length (hcpu i e)).trans_le (h.magazine i hi)
  · exact hlim.1 ▸ h.limit
  · exact hlim.2 ▸ h.batch
  · intro i hi
    by_cases e : i = k
    · subst e; rw [hself]; exact hok
    · rw [hother i e]; exact hcpu i e ▸ h.pcs i hi
  · have hp := h.pages
    rw [total_eq hk] at hp ⊢
    rw [others_congr fun i hi => by rw [hother i hi], hself]
    refine add_right_cancel (b := w.pages) ?_
    show (w'.s.listed : Multiset Nat) + det' + (pc.toFree + _) + callPages w'.calls + _ = w'.pages + _
    calc _ = ((w'.s.listed : Multiset Nat) + det' + pc.toFree + callPages w'.calls + w.pages) +
          others (fun i => (w.pc i).toFree) k := by abel
      _ = _ := by
        rw [hpages]
        conv_rhs => rw [← hp]
        abel

theorem not_mem_all (h : WInv c w fl det) (hx : x ∉ w.pages) : x ∉ w.s.all det := by
  intro hm
  refine hx ?_
  rw [← h.pages]
  refine mem_add.2 (.inl (mem_add.2 (.inl (mem_add.2 ?_))))
  exact mem_append.1 hm

theorem load_nil (h : pc.load = ([], [], [])) : pc.det = [] ∧ pc.transit = [] ∧ pc.toFree = [] := by
  simpa [Pc.load] using h

theorem mem_objs_of_live (w : World) (ho : o ∈ w.live) : o ∈ w.objs :=
  mem_add.2 (.inr (mem_add.2 (.inr (mem_coe.2 ho))))

section

variable (h : WInv c w fl det) (hk : k < maxCpus) {target : Nat} {page : Option Nat}

include h hk

theorem toFree_add : ((w.pc k).toFree : Multiset Nat) + (w.pages - (w.pc k).toFree) = w.pages := by
  refine add_tsub_cancel_of_le ?_
  rw [← h.pages, total_eq hk]
  exact le_trans (le_add_right _ _) (le_trans (le_add_left _ _) (le_add_right _ _))

theorem setPc (hload : (w.pc k).load = pc.load) (hok : pc.Ok (w.s.cpu k)) :
    WInv c (w.setPc k pc) fl det := by
  obtain ⟨hd, ht, hf⟩ : (w.pc k).det = pc.det ∧ (w.pc k).transit = pc.transit ∧
      (w.pc k).toFree = pc.toFree := by simpa [Pc.load] using hload
  refine h.advance hk rfl (fun i _ => rfl) ⟨rfl, rfl⟩ hok (h.magazine k hk) ?_ ?_ h.calls ?_ h.nodup
  · rw [← ht]; exact h.inv_at hk
  · rw [hd]
  · rw [hf]

/-- The top of the magazine goes to a client and the lock is released. -/
theorem pop (hload : (w.pc k).load = ([], [], [])) : WInv c ((w.pop k).setPc k .idle) fl det := by
  obtain ⟨hd, ht, hf⟩ := load_nil hload
  unfold World.pop
  cases hc : w.s.cpu k with
  | nil => exact h.setPc hk hload trivial
  | cons o l =>
    have hcpu : (w.s.setCpu k l).cpu k = l := update_self ..
    have hlen := h.magazine k hk
    rw [hc, length_cons] at hlen
    refine h.advance hk rfl (fun i hi => update_of_ne hi ..) ⟨rfl, rfl⟩ trivial
      (by rw [hcpu]; omega) ?_ ?_ h.calls ?_ h.nodup
    · have hi := h.inv_at hk
      rw [hc, ht] at hi
      rw [hcpu]
      have e : ((o :: l : List Nat) : Multiset Nat) + (([] : List Nat) + ((w.live : Multiset Nat) + w.rest k))
          = (l : Multiset Nat) + ((Pc.idle.transit : Multiset Nat) +
            (((o :: w.live : List Nat) : Multiset Nat) + w.rest k)) := by
        rw [coe_cons, coe_cons]
        dsimp only [Pc.transit]
        abel
      rw [← e]
      exact hi.setCpu k l
    · rw [hd]; rfl
    · rw [hf]; rfl

/-- An object in hand is pushed and the lock is released; pages may go back meanwhile. -/
theorem push (o : Nat) (live : List Nat) (pages : Multiset Nat) (hd : (w.pc k).det = [])
    (ho : ((w.pc k).transit : Multiset Nat) + w.live = {o} + (live : Multiset Nat))
    (hroom : (w.s.cpu k).length < magSize)
    (hpages : ((w.pc k).toFree : Multiset Nat) + pages = w.pages) :
    WInv c (({ w with live := live, pages := pages }.push k o).setPc k .idle) fl det := by
  have hcpu : (w.s.setCpu k (o :: w.s.cpu k)).cpu k = o :: w.s.cpu k := update_self ..
  unfold World.push
  refine h.advance hk rfl (fun i hi => update_of_ne hi ..) ⟨rfl, rfl⟩ trivial ?_ ?_ ?_ h.calls ?_ ?_
  · rw [hcpu]; exact hroom
  · rw [hcpu]
    have hi := h.inv_at hk
    have e : (w.s.cpu k : Multiset Nat) + ((w.pc k).transit + ((w.live : Multiset Nat) + w.rest k))
        = ((o :: w.s.cpu k : List Nat) : Multiset Nat) + ((Pc.idle.transit : Multiset Nat) +
          ((live : Multiset Nat) + w.rest k)) := by
      rw [← add_assoc ((w.pc k).transit : Multiset Nat), ho, coe_cons]
      abel
    rw [← e]
    exact hi.setCpu k _
  · rw [hd]; rfl
  · have e0 : ((Pc.idle.toFree : List Nat) : Multiset Nat) = 0 := rfl
    have el : (w.s.setCpu k (o :: w.s.cpu k)).listed = w.s.listed := rfl
    rw [← hpages, e0, el]
    abel
  · have hn := h.nodup
    rw [← hpages, nodup_add] at hn
    exact hn.2.1

/-! ## Sections of the holder of a magazine -/

theorem refill (hpc : w.pc k = .refill target) :
    ∃ w' fl', w.go c k page = .ok w' ∧ WInv c w' fl' det := by
  have hok : target ≤ magSize := by have := h.pcs k hk; rwa [hpc] at this
  have hload : (w.pc k).load = ([], [], []) := by rw [hpc]; rfl
  obtain ⟨hd, ht, hf⟩ := load_nil hload
  unfold World.go
  rw [hpc]
  dsimp only
  split
  · obtain ⟨s', fl', new, he, hlen, hcpu, hlim, hbat, hi, hperm⟩ :=
      refillLocked_spec k (target - (w.s.cpu k).length) (h.inv_at hk)
    have hself : s'.cpu k = new ++ w.s.cpu k := by rw [hcpu, update_self]
    have key : ∀ pc : Pc, pc.load = ([], [], []) → pc.Ok (s'.cpu k) →
        WInv c ({ w with s := s' }.setPc k pc) fl' det := by
      intro pc hload' hok'
      obtain ⟨hd', ht', hf'⟩ := load_nil hload'
      refine h.advance hk rfl (fun i hi => ?_) ⟨hlim, hbat⟩ hok' ?_ ?_ ?_ h.calls ?_ h.nodup
      · rw [hcpu, update_of_ne hi]
      · rw [hself, length_append]; omega
      · rw [ht', hself, ← coe_add, add_assoc, ← ht]
        exact hi
      · rw [hd', hd]
      · rw [hf', hf, coe_eq_coe.2 hperm]
    rw [he]
    by_cases hge : (s'.cpu k).length ≥ target
    · exact ⟨_, fl', by simp only [Bind.bind, Except.bind]; rw [if_pos hge], key .take rfl trivial⟩
    · exact ⟨_, fl', by simp only [Bind.bind, Except.bind]; rw [if_neg hge], key (.detach target) rfl hok⟩
  · exact ⟨_, fl, rfl, h.setPc hk hload trivial⟩

theorem detach (hpc : w.pc k = .detach target)
    (hpage : ∀ mem, page = some mem → PageOk mem ∧ mem ∉ w.pages) :
    ∃ w' fl' det', w.go c k page = .ok w' ∧ WInv c w' fl' det' := by
  have hok : target ≤ magSize := by have := h.pcs k hk; rwa [hpc] at this
  have hload : (w.pc k).load = ([], [], []) := by rw [hpc]; rfl
  obtain ⟨hd, ht, hf⟩ := load_nil hload
  unfold World.go
  rw [hpc]
  cases page with
  | none => exact ⟨_, fl, det, rfl, h.setPc hk hload trivial⟩
  | some mem =>
    obtain ⟨hp, hnew⟩ := hpage mem rfl
    obtain ⟨fl', hi, hlisted, hcpu, hlim, hbat⟩ :=
      allocSlabDetached_spec (h.inv_at hk) hp (h.not_mem_all hnew)
    refine ⟨_, fl', mem :: det, rfl, h.advance hk rfl (fun i _ => congrFun hcpu i) ⟨hlim, hbat⟩ hok
      ?_ ?_ ?_ h.calls ?_ ?_⟩
    · rw [hcpu]; exact h.magazine k hk
    · rw [ht] at hi
      exact hi
    · rw [hd, coe_cons, Pc.det, coe_singleton, coe_nil]
      abel
    · rw [hf, hlisted, coe_cons, ← singleton_add]
      dsimp only [Pc.toFree]
      abel
    · exact nodup_cons.2 ⟨hnew, h.nodup⟩

theorem attach (hpc : w.pc k = .attach target slab) :
    ∃ w' det', w.go c k page = .ok w' ∧ WInv c w' fl det' := by
  have hok : target ≤ magSize := by have := h.pcs k hk; rwa [hpc] at this
  have hd : (w.pc k).det = [slab] := by rw [hpc]; rfl
  have ht : (w.pc k).transit = [] := by rw [hpc]; rfl
  have hf : (w.pc k).toFree = [] := by rw [hpc]; rfl
  unfold World.go
  rw [hpc]
  -- the slab in hand is one of the detached ones
  have hmem : slab ∈ det := by
    rw [← mem_coe, h.detached, total_eq hk, hd]
    exact mem_add.2 (.inl (by simp))
  have hperm := perm_cons_erase hmem
  have hi := h.inv_at hk
  have hi' : Inv c w.s fl (slab :: det.erase slab) _ :=
    hi.relist (hperm.symm.append_left _) rfl rfl ⟨hi.classed.free, hi.classed.part, hi.classed.full,
      fun y hy => hi.classed.detached y (hperm.mem_iff.2 hy)⟩ hi.total
  obtain ⟨hi₁, hlisted⟩ := addSlabLocked_spec hi'
  have hcoe : (det : Multiset Nat) = {slab} + (det.erase slab : Multiset Nat) :=
    coe_eq_coe.2 hperm
  refine ⟨_, det.erase slab, rfl, h.advance hk rfl (fun i _ => rfl) ⟨rfl, rfl⟩ hok (h.magazine k hk)
    ?_ ?_ h.calls ?_ h.nodup⟩
  · rw [ht] at hi₁
    exact hi₁
  · rw [hd, hcoe, coe_singleton]
    dsimp only [Pc.det]
    rw [coe_nil]
    abel
  · rw [hf, hlisted, hcoe, coe_cons]
    dsimp only [Pc.toFree]
    abel

/-- A drain section, for `kmem_cache_free` and for `kmem_cache_drain`. -/
theorem drain (nr : Nat) (hd : (w.pc k).det = []) (hf : (w.pc k).toFree = []) (pc : List Nat → Pc)
    (hd' : ∀ l, (pc l).det = []) (ht' : ∀ l, (pc l).transit = (w.pc k).transit)
    (hf' : ∀ l, (pc l).toFree = l) (hok : ∀ l, (pc l).Ok ((w.s.cpu k).drop nr)) :
    ∃ s' toFree fl', drainLocked c k nr w.s [] = .ok (s', toFree) ∧
      WInv c ({ w with s := s' }.setPc k (pc toFree)) fl' det := by
  obtain ⟨s', fl', toFree, he, hcpu, hlim, hbat, hi, hperm⟩ := drainLocked_spec k nr [] (h.inv_at hk)
  have hself : s'.cpu k = (w.s.cpu k).drop nr := by rw [hcpu, update_self]
  have hlen := h.magazine k hk
  refine ⟨s', toFree, fl', he, h.advance hk rfl (fun i hi => ?_) ⟨hlim, hbat⟩ ?_ ?_ ?_ ?_ h.calls ?_
    h.nodup⟩
  · rw [hcpu, update_of_ne hi]
  · rw [hself]; exact hok toFree
  · rw [hself, length_drop]; omega
  · rw [ht', hself]; exact hi
  · rw [hd', hd]
  · have hp : (toFree : Multiset Nat) + s'.listed = w.s.listed := coe_eq_coe.2 hperm
    rw [hf', hf, ← hp, coe_nil]
    abel

theorem go (hpage : ∀ mem, page = some mem → PageOk mem ∧ mem ∉ w.pages) :
    ∃ w' fl' det', w.go c k page = .ok w' ∧ WInv c w' fl' det' := by
  have hok := h.pcs k hk
  have hmag := h.magazine k hk
  cases hpc : w.pc k with
  | idle | sweep => exact ⟨w, fl, det, by rw [World.go, hpc], h⟩
  | refill target =>
    obtain ⟨w', fl', he, hw⟩ := h.refill hk hpc
    exact ⟨w', fl', det, he, hw⟩
  | detach target => exact h.detach hk hpc hpage
  | attach target slab =>
    obtain ⟨w', det', he, hw⟩ := h.attach hk hpc
    exact ⟨w', fl, det', he, hw⟩
  | take =>
    exact ⟨_, fl, det, by rw [World.go, hpc], h.pop hk (by rw [hpc]; rfl)⟩
  | freeDrain obj =>
    exact ⟨w.setPc k (.freeDrainLocked obj w.s.magBatch), fl, det, by rw [World.go, hpc],
      h.setPc hk (by rw [hpc]; rfl) h.batch.1⟩
  | freeDrainLocked obj nr =>
    rw [hpc] at hok
    have hnr : 1 ≤ nr := hok
    obtain ⟨s', toFree, fl', he, hw⟩ := h.drain hk nr (by rw [hpc]; rfl) (by rw [hpc]; rfl)
      (fun l => .freePages obj l) (fun _ => rfl) (fun _ => by rw [hpc]; rfl) (fun _ => rfl) (fun _ => by
        show ((w.s.cpu k).drop nr).length < magSize
        rw [length_drop]
        have : 0 < magSize := by decide
        omega)
    exact ⟨_, fl', det, by rw [World.go, hpc]; dsimp only; rw [he]; rfl, hw⟩
  | freePages obj toFree =>
    rw [hpc] at hok
    have hsub := h.toFree_add hk
    rw [hpc] at hsub
    refine ⟨_, fl, det, by rw [World.go, hpc], h.push hk obj w.live _ ?_ ?_ hok ?_⟩
    · rw [hpc]; rfl
    · rw [hpc]; rfl
    · rw [hpc]; exact hsub
  | sweepLocked nr =>
    obtain ⟨s', toFree, fl', he, hw⟩ := h.drain hk nr (by rw [hpc]; rfl) (by rw [hpc]; rfl)
      (fun l => .sweepPages l) (fun _ => rfl) (fun _ => by rw [hpc]; rfl) (fun _ => rfl) (fun _ => trivial)
    exact ⟨_, fl', det, by rw [World.go, hpc]; dsimp only; rw [he]; rfl, hw⟩
  | sweepPages toFree =>
    have hsub := h.toFree_add hk
    rw [hpc] at hsub
    refine ⟨{ w with pages := w.pages - (toFree : Multiset Nat) }.setPc k .sweep, fl, det,
      by rw [World.go, hpc], ?_⟩
    refine h.advance hk rfl (fun i _ => rfl) ⟨rfl, rfl⟩ trivial hmag ?_ ?_ h.calls ?_ ?_
    · have hi := h.inv_at hk
      rw [hpc] at hi
      exact hi
    · rw [hpc]; rfl
    · rw [hpc]
      dsimp only [Pc.toFree] at hsub ⊢
      rw [coe_nil]
      generalize w.pages - (toFree : Multiset Nat) = back at hsub ⊢
      rw [← hsub]
      abel
    · have hn := h.nodup
      rw [← hsub, nodup_add] at hn
      exact hn.2.1

/-! ## The clients -/

theorem alloc (hidle : w.pc k = .idle) : WInv c (w.alloc k) fl det := by
  unfold World.alloc
  split
  · have hpop := h.pop hk (by rw [hidle]; rfl)
    have hsame : (w.pop k).setPc k .idle = w.pop k := by
      have hpc : (w.pop k).pc = w.pc := by unfold World.pop; split <;> rfl
      unfold World.setPc
      rw [hpc, ← hidle, update_eq_self]
      cases hw : w.pop k
      rw [hw] at hpc
      cases hpc
      rfl
    rwa [hsame] at hpop
  · exact h.setPc hk (by rw [hidle]; rfl) h.batch.2

theorem live_not_cached (ho : o ∈ w.live) : o ∉ w.s.cpu k := by
  intro hm
  have hnd := (h.inv_at hk).objs_nodup
  refine disjoint_left.1 (nodup_add.1 hnd).2.2 (mem_coe.2 hm) ?_
  exact mem_add.2 (.inr (mem_add.2 (.inl (mem_coe.2 ho))))

theorem free (hidle : w.pc k = .idle) (ho : o ∈ w.live) :
    ∃ w', w.free k o = .ok w' ∧ WInv c w' fl det := by
  obtain ⟨x, hx, hox, -⟩ := h.inv.obj_slab (mem_objs_of_live w ho)
  have hlive : (w.live : Multiset Nat) = {o} + (w.live.erase o : Multiset Nat) :=
    coe_eq_coe.2 (perm_cons_erase ho)
  obtain ⟨hd, ht, hf⟩ := @load_nil (w.pc k) (by rw [hidle]; rfl)
  unfold World.free
  rw [if_neg (slot_ne_zero h.inv.fits hox), h.inv.objToSlab_eq hx hox,
    if_neg (not_not.2 (h.inv.magic x hx)), if_neg (h.live_not_cached hk ho)]
  dsimp only
  split_ifs with hroom
  · refine ⟨_, rfl, ?_⟩
    refine h.advance hk rfl (fun i _ => rfl) ⟨rfl, rfl⟩ trivial (h.magazine k hk) ?_ ?_ h.calls ?_ h.nodup
    · have hi := h.inv_at hk
      rw [ht, hlive, coe_nil, zero_add, add_assoc] at hi
      exact hi
    · rw [hd]; rfl
    · rw [hf]; rfl
  · have hpush := h.push hk o (w.live.erase o) w.pages hd
      (by rw [ht, hlive]; rfl) (Nat.lt_of_lt_of_le (Nat.lt_of_not_le hroom) h.limit.2)
      (by rw [hf, coe_nil, zero_add])
    refine ⟨_, rfl, ?_⟩
    have hsame : (({ w with live := w.live.erase o } : World).push k o).setPc k .idle =
        ({ w with live := w.live.erase o } : World).push k o := by
      unfold World.setPc World.push
      rw [← hidle, update_eq_self]
    rw [← hsame]
    exact hpush

end

theorem write (h : WInv c w fl det) {a v : Nat} (ho : o ∈ w.live) (h1 : o ≤ a)
    (h2 : a < o + c.objectSize) :
    WInv c { w with s := { w.s with next := update w.s.next a v } } fl det :=
  { h with inv := write_spec h.inv (mem_objs_of_live w ho) h1 h2 }

/-! ## The calls of `kmem_cache_drain` -/

theorem calls_split (w : World) (hd : d ∈ w.calls) :
    callPages w.calls = d.pages + callPages (w.calls.erase d) :=
  (sum_map_erase _ hd).symm

theorem calls_none (w : World) (hd : d ∈ w.calls) (hn : d.pages = []) :
    callPages w.calls = callPages (w.calls.erase d) := by
  rw [calls_split w hd, hn, coe_nil, zero_add]

theorem calls_cons {l : List DrainCall} (hn : d.pages = []) :
    callPages (d :: l) = callPages l := by
  rw [callPages, List.map_cons, List.sum_cons, hn, coe_nil, zero_add]

/-- A call changes its phase and the slabs it carries, between sections. -/
theorem callStep (h : WInv c w fl det) {s' : Slabs} {calls : List DrainCall} (hcpu : s'.cpu = w.s.cpu)
    (hlim : 1 ≤ s'.magLimit ∧ s'.magLimit ≤ magSize) (hbat : 1 ≤ s'.magBatch ∧ s'.magBatch ≤ magSize)
    (hinv : Inv c s' fl det w.objs) (hcalls : ∀ d ∈ calls, d.Ok)
    (hpages : (s'.listed : Multiset Nat) + callPages calls + w.pages =
      (w.s.listed : Multiset Nat) + callPages w.calls + pages)
    (hnodup : pages.Nodup) :
    WInv c { w with s := s', calls := calls, pages := pages } fl det := by
  have hobjs : ({ w with s := s', calls := calls, pages := pages } : World).objs = w.objs := by
    unfold World.objs
    rw [hcpu]
  refine { inv := by rw [hobjs]; exact hinv, detached := h.detached, magazine := ?_, limit := hlim,
           batch := hbat, pcs := ?_, calls := hcalls, pages := ?_, nodup := hnodup }
  · intro i hi; dsimp only; rw [hcpu]; exact h.magazine i hi
  · intro i hi; dsimp only; rw [hcpu]; exact h.pcs i hi
  · have hp := h.pages
    refine add_right_cancel (b := w.pages) ?_
    calc _ = ((s'.listed : Multiset Nat) + callPages calls + w.pages)
          + (det + total fun i => (w.pc i).toFree) := by abel
      _ = _ := by
        rw [hpages]
        conv_rhs => rw [← hp]
        abel

section

variable (h : WInv c w fl det) (hd : d ∈ w.calls)

include h hd

theorem calls_ok (hp : ∀ cpu, p = .hold cpu → cpu < maxCpus) :
    ∀ d' ∈ ({ d with phase := p } : DrainCall) :: w.calls.erase d, d'.Ok :=
  forall_mem_cons.2 ⟨⟨hp, (h.calls d hd).2⟩, fun d' hd' => h.calls d' (mem_of_mem_erase hd')⟩

theorem rephase (hnil : d.pages = []) (hp : ({ d with phase := p } : DrainCall).pages = [])
    (hcpu : ∀ cpu, p = .hold cpu → cpu < maxCpus) :
    WInv c { w with calls := { d with phase := p } :: w.calls.erase d } fl det := by
  refine h.callStep rfl h.limit h.batch h.inv (h.calls_ok hd hcpu) ?_ h.nodup
  rw [calls_none w hd hnil, calls_cons hp]

theorem goCall (hlock : ∀ cpu < maxCpus, d.phase = .lock cpu → w.pc cpu = .idle) :
    WInv c (w.goCall d (w.calls.erase d)) fl det := by
  have hrest : ∀ d' ∈ w.calls.erase d, d'.Ok := fun d' hd' => h.calls d' (mem_of_mem_erase hd')
  obtain ⟨phase, args⟩ := d
  obtain ⟨hhold, hargs⟩ := h.calls _ hd
  unfold World.goCall
  cases phase with
  | lock cpu =>
    dsimp only
    split_ifs with hlt
    · have hidle := hlock cpu hlt rfl
      have h₁ := h.rephase hd rfl (p := .hold cpu) rfl (fun i hi => by cases hi; exact hlt)
      exact h₁.setPc hlt (by dsimp only; rw [hidle]; rfl) trivial
    · exact h.rephase hd rfl rfl nofun
  | hold cpu =>
    have hlt := hhold cpu rfl
    dsimp only
    cases hpc : w.pc cpu with
    | sweep =>
      dsimp only
      split
      · have h₁ := h.rephase hd rfl (p := .lock (cpu + 1)) rfl nofun
        exact h₁.setPc hlt (by dsimp only; rw [hpc]; rfl) trivial
      · exact h.setPc hlt (by rw [hpc]; rfl) trivial
    | _ => exact h
  | trim =>
    cases htk : w.s.takeFreeSlab with
    | none =>
      cases args with
      | none => exact h.callStep rfl h.limit h.batch h.inv hrest (by rw [calls_none w hd rfl]) h.nodup
      | some a => exact h.rephase hd rfl rfl nofun
    | some r =>
      obtain ⟨slab, s'⟩ := r
      obtain ⟨hi, hperm, hcpu, hlim, hbat⟩ := takeFreeSlab_spec h.inv htk
      refine h.callStep hcpu (by rw [hlim]; exact h.limit) (by rw [hbat]; exact h.batch) hi
        (h.calls_ok hd nofun) ?_ h.nodup
      · have hp : ({slab} : Multiset Nat) + s'.listed = w.s.listed := coe_eq_coe.2 hperm
        have hpg : (DrainCall.pages ⟨.trimPage slab, args⟩ : Multiset Nat) = {slab} := rfl
        rw [calls_none w hd rfl, callPages, List.map_cons, List.sum_cons, ← hp, hpg]
        abel
  | trimPage slab =>
    have hmem : slab ∈ w.pages := by
      rw [← h.pages, calls_split w hd]
      exact mem_add.2 (.inr (mem_add.2 (.inl (List.mem_singleton_self slab))))
    refine h.callStep rfl h.limit h.batch h.inv (h.calls_ok hd nofun) ?_ (h.nodup.erase slab)
    · have hpg : (DrainCall.pages ⟨.trimPage slab, args⟩ : Multiset Nat) = {slab} := rfl
      have hcons : w.pages = {slab} + w.pages.erase slab := (cons_erase hmem).symm
      rw [calls_split w hd, hpg, calls_cons rfl]
      conv_lhs => rw [hcons]
      abel
  | setLimit =>
    refine h.callStep rfl ?_ h.batch { h.inv with classed := { h.inv.classed with } }
      (h.calls_ok hd nofun) ?_ h.nodup
    · rcases args with - | ⟨l, b⟩
      · exact h.limit
      · obtain ⟨h1, h2, h3⟩ := hargs l b rfl
        exact ⟨h1.trans h2, h3⟩
    · rw [calls_none w hd rfl, calls_cons rfl]
      rfl
  | setBatch =>
    refine h.callStep rfl h.limit ?_ { h.inv with classed := { h.inv.classed with } } hrest ?_ h.nodup
    · rcases args with - | ⟨l, b⟩
      · exact h.batch
      · obtain ⟨h1, h2, h3⟩ := hargs l b rfl
        exact ⟨h1, h2.trans h3⟩
    · rw [calls_none w hd rfl]
      rfl

end

end WInv

/-! ## Steps and runs -/

section Steps

variable {c : KmemCache} {w : World}

theorem step_spec {fl : Nat → List Nat} {det : List Nat} (h : WInv c w fl det) {op : Op}
    (hop : w.Enabled c op) :
    ∃ w' fl' det', w.step c op = .ok w' ∧ WInv c w' fl' det' := by
  cases op with
  | alloc cpu => exact ⟨_, fl, det, rfl, h.alloc hop.1 hop.2⟩
  | free cpu obj =>
    obtain ⟨w', he, hw⟩ := h.free hop.1 hop.2.1 hop.2.2
    exact ⟨w', fl, det, he, hw⟩
  | write obj a v => exact ⟨_, fl, det, rfl, h.write hop.1 hop.2.1 hop.2.2⟩
  | go cpu page => exact h.go hop.1 hop.2
  | drain =>
    refine ⟨_, fl, det, rfl, h.callStep rfl h.limit h.batch h.inv ?_ ?_ h.nodup⟩
    · exact forall_mem_cons.2 ⟨⟨nofun, nofun⟩, h.calls⟩
    · rw [WInv.calls_cons rfl]
  | setMagazine limit batch =>
    simp only [World.step]
    split_ifs with hok
    · simp only [setMagazineOk, Bool.not_eq_true', Bool.or_eq_false_iff, beq_eq_false_iff_ne,
        decide_eq_false_iff_not, not_lt] at hok
      refine ⟨_, fl, det, rfl, h.callStep rfl h.limit h.batch h.inv ?_ ?_ h.nodup⟩
      · refine forall_mem_cons.2 ⟨⟨nofun, fun l b e => ?_⟩, h.calls⟩
        cases e
        omega
      · rw [WInv.calls_cons rfl]
    · exact ⟨w, fl, det, rfl, h⟩
  | call d => exact ⟨_, fl, det, rfl, h.goCall hop.1 hop.2⟩

theorem init_spec (hf : Fits c) (slab : Nat → Slab) (next : Nat → Nat) :
    WInv c (World.init slab next) (fun _ => []) [] := by
  have hzero : total (fun _ => []) = 0 := by simp [total]
  refine { inv := ?_, detached := hzero.symm, magazine := fun _ _ => zero_le _,
           limit := ⟨(by decide : 1 ≤ magSize), le_refl _⟩,
           batch := (by decide : 1 ≤ magSize / 2 ∧ magSize / 2 ≤ magSize), pcs := fun _ _ => trivial,
           calls := nofun, pages := ?_, nodup := nodup_zero }
  · refine { fits := hf, page := ?_, nodup := nodup_nil, magic := ?_, linked := ?_, slot := ?_,
             inuse := ?_, cover := rfl, classed := ⟨?_, ?_, ?_, ?_⟩, total := rfl }
    all_goals intro x hx; cases hx
  · rfl

theorem run_spec (hf : Fits c) {slab : Nat → Slab} {next : Nat → Nat}
    (hrun : Relation.ReflTransGen (World.Step c) (World.init slab next) w) :
    ∃ fl det, WInv c w fl det := by
  induction hrun with
  | refl => exact ⟨_, _, init_spec hf slab next⟩
  | tail _ hstep ih =>
    obtain ⟨fl, det, h⟩ := ih
    obtain ⟨op, hop, he⟩ := hstep
    obtain ⟨w', fl', det', he', hw⟩ := step_spec h hop
    cases he.symm.trans he'
    exact ⟨fl', det', hw⟩

end Steps

/-! ## What the invariant says about the objects -/

/-- The objects at clients: those they hold and those a `kmem_cache_free` has not stored yet. -/
def World.clients (w : World) : List Nat :=
  w.live ++ (List.range maxCpus).flatMap fun i => (w.pc i).transit

/-- Where a slot can be. -/
inductive SlotPlace
  | freeList (slab : Nat)
  | magazine (cpu : Nat)
  | client

def SlotPlace.Holds (w : World) (fl : Nat → List Nat) (o : Nat) : SlotPlace → Prop
  | .freeList slab => slab ∈ w.s.listed ∧ o ∈ fl slab
  | .magazine cpu => cpu < maxCpus ∧ o ∈ w.s.cpu cpu
  | .client => o ∈ w.clients

structure CacheOk (c : KmemCache) (w : World) (fl : Nat → List Nat) : Prop where
  lists : (w.s.freeSlabs ++ w.s.partialSlabs ++ w.s.fullSlabs).Nodup
  free : ∀ x ∈ w.s.freeSlabs, (w.s.slab x).inuse = 0
  part : ∀ x ∈ w.s.partialSlabs, 0 < (w.s.slab x).inuse ∧ (w.s.slab x).inuse < c.objectsPerSlab
  full : ∀ x ∈ w.s.fullSlabs, (w.s.slab x).inuse = c.objectsPerSlab
  linked : ∀ x ∈ w.s.listed, Linked (fun a => ptr (w.s.next a)) (ptr (w.s.slab x).freeObject) (fl x)
  freeNodup : ∀ x ∈ w.s.listed, (fl x).Nodup ∧ ∀ o ∈ fl x, o ∈ slots c x
  freeLength : ∀ x ∈ w.s.listed, (fl x).length = c.objectsPerSlab - (w.s.slab x).inuse
  place : ∀ x ∈ w.s.listed, ∀ o ∈ slots c x, ∃! place : SlotPlace, place.Holds w fl o
  cached : ∀ cpu < maxCpus, (w.s.cpu cpu).Nodup ∧ (w.s.cpu cpu).length ≤ magSize
  clientsNodup : w.clients.Nodup
  inside : ∀ o ∈ w.clients, ∃ x ∈ w.s.listed, o ∈ slots c x ∧
    x + sizeofSlab ≤ o ∧ o + c.objectSize ≤ x + pageSize
  disjoint : ∀ o ∈ w.clients, ∀ q ∈ w.clients, o ≠ q →
    o + c.objectSize ≤ q ∨ q + c.objectSize ≤ o
  total : w.s.totalSlabs = w.s.listed.length

section Objects

variable {c : KmemCache} {w : World} {fl : Nat → List Nat} {det : List Nat}

theorem coe_flatMap_range (F : Nat → List Nat) (n : Nat) :
    (((List.range n).flatMap F : List Nat) : Multiset Nat) =
      ∑ i ∈ Finset.range n, (F i : Multiset Nat) := by
  induction n with
  | zero => rfl
  | succ n ih =>
    rw [List.range_succ, List.flatMap_append, ← coe_add, ih, Finset.sum_range_succ]
    simp

theorem coe_clients (w : World) : (w.clients : Multiset Nat) =
    total (fun i => (w.pc i).transit) + (w.live : Multiset Nat) := by
  rw [World.clients, ← coe_add, coe_flatMap_range, add_comm]
  rfl

theorem objs_clients (w : World) : w.objs = total w.s.cpu + (w.clients : Multiset Nat) := by
  rw [World.objs, coe_clients]

section

variable (h : WInv c w fl det)

include h

/-- A slot in use belongs to a listed slab: the slabs still to be added have none. -/
theorem WInv.obj_listed (ho : o ∈ w.objs) : ∃ x ∈ w.s.listed, o ∈ slots c x ∧ o ∉ fl x := by
  obtain ⟨x, hx, hox, hfl⟩ := h.inv.obj_slab ho
  exact ⟨x, (h.inv.in_use hx hox hfl).1, hox, hfl⟩

theorem WInv.exists_place (hx : x ∈ w.s.listed)
    (ho : o ∈ slots c x) : ∃ place : SlotPlace, place.Holds w fl o := by
  have hm : o ∈ ((w.s.all det).map fun x => (slots c x : Multiset Nat)).sum :=
    mem_sum_map.2 ⟨x, mem_all_of_listed hx, ho⟩
  rw [← h.inv.cover] at hm
  rcases mem_add.1 hm with hm | hm
  · obtain ⟨y, hy, hoy⟩ := mem_sum_map.1 hm
    obtain rfl := h.inv.owner_eq (mem_all_of_listed hx) hy ho hoy
    exact ⟨.freeList x, hx, hoy⟩
  · rw [objs_clients] at hm
    rcases mem_add.1 hm with hm | hm
    · obtain ⟨i, hi, hm⟩ := mem_sum.1 hm
      exact ⟨.magazine i, Finset.mem_range.1 hi, hm⟩
    · exact ⟨.client, hm⟩

theorem WInv.place_unique {a b : SlotPlace}
    (ha : a.Holds w fl o) (hb : b.Holds w fl o) : a = b := by
  have hobjs : ∀ place : SlotPlace, place.Holds w fl o → (∀ x, place ≠ .freeList x) → o ∈ w.objs := by
    intro place hp hne
    rw [objs_clients]
    cases place with
    | freeList x => exact absurd rfl (hne x)
    | magazine i => exact mem_add.2 (.inl (mem_sum.2 ⟨_, Finset.mem_range.2 hp.1, hp.2⟩))
    | client => exact mem_add.2 (.inr hp)
  have hfree : ∀ x, x ∈ w.s.listed → o ∈ fl x → o ∉ w.objs := by
    intro x hx hox hm
    obtain ⟨y, hy, hoy, hfl⟩ := h.obj_listed hm
    obtain rfl := h.inv.owner_eq (mem_all_of_listed hy) (mem_all_of_listed hx) hoy hox
    exact hfl hox
  have hnd := h.inv.objs_nodup
  rw [objs_clients, nodup_add] at hnd
  obtain ⟨hmag, -, hdis⟩ := hnd
  cases a with
  | freeList x =>
    cases b with
    | freeList y =>
      have hx := @mem_all_of_listed _ det _ ha.1
      rw [h.inv.owner_eq hx (mem_all_of_listed hb.1) (h.inv.slot x hx o ha.2) hb.2]
    | magazine | client => exact absurd (hobjs _ hb nofun) (hfree x ha.1 ha.2)
  | magazine i =>
    cases b with
    | freeList y => exact absurd (hobjs _ ha nofun) (hfree y hb.1 hb.2)
    | magazine j =>
      rw [index_unique hmag ha.1 hb.1 ha.2 hb.2]
    | client =>
      exact absurd hb (disjoint_left.1 hdis (mem_sum.2 ⟨_, Finset.mem_range.2 ha.1, ha.2⟩))
  | client =>
    cases b with
    | freeList y => exact absurd (hobjs _ ha nofun) (hfree y hb.1 hb.2)
    | magazine j =>
      exact absurd ha (disjoint_left.1 hdis (mem_sum.2 ⟨_, Finset.mem_range.2 hb.1, hb.2⟩))
    | client => rfl

theorem cacheOk_of_inv : CacheOk c w fl := by
  have hall : ∀ x ∈ w.s.listed, x ∈ w.s.all det := fun x hx => mem_all_of_listed hx
  have hnd := h.inv.objs_nodup
  rw [objs_clients, nodup_add] at hnd
  have hclient : ∀ o ∈ w.clients, ∃ x ∈ w.s.listed, o ∈ slots c x := by
    intro o ho
    obtain ⟨x, hx, hox, -⟩ := h.obj_listed (by rw [objs_clients]; exact mem_add.2 (.inr ho))
    exact ⟨x, hx, hox⟩
  refine { lists := h.inv.listed_nodup, free := h.inv.classed.free, part := h.inv.classed.part,
           full := h.inv.classed.full, linked := fun x hx => h.inv.linked x (hall x hx),
           freeNodup := fun x hx => ⟨h.inv.fl_nodup (hall x hx), h.inv.slot x (hall x hx)⟩,
           freeLength := ?_, place := ?_, cached := ?_, clientsNodup := hnd.2.1, inside := ?_,
           disjoint := ?_, total := h.inv.total }
  · intro x hx
    have := h.inv.inuse x (hall x hx)
    omega
  · intro x hx o ho
    obtain ⟨place, hp⟩ := h.exists_place hx ho
    exact ⟨place, hp, fun place' hp' => h.place_unique hp' hp⟩
  · intro i hi
    exact ⟨nodup_of_nodup_sum hnd.1 hi, h.magazine i hi⟩
  · intro o ho
    obtain ⟨x, hx, hox⟩ := hclient o ho
    obtain ⟨h1, h2⟩ := slot_bounds h.inv.fits hox
    exact ⟨x, hx, hox, h1, by rw [pageSize_eq]; exact h2⟩
  · intro o ho q hq hne
    obtain ⟨x, hx, hox⟩ := hclient o ho
    obtain ⟨y, hy, hqy⟩ := hclient q hq
    exact slot_apart h.inv.fits (h.inv.page x (hall x hx)).aligned (h.inv.page y (hall y hy)).aligned
      hox hqy hne

end

end Objects

end ZzzOs.Mm.Slabs
