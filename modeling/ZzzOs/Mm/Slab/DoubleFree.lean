import ZzzOs.Mm.Slab.Created

/-!
# Freeing an object twice

`kmem_cache_free` looks for the object in the magazine of its own CPU only; the free list of the slab is
scanned when the object is drained, not before. So a second free is caught at once where the first copy
is still in that magazine, or where the slab is gone; on another CPU it goes through.
-/

namespace ZzzOs.Mm.Slabs

open Lib List Relation

namespace World

variable (c : KmemCache)

/-- Clients may also free an object that none of them holds. -/
def EnabledAny (w : World) : Op → Prop
  | .free cpu obj => cpu < maxCpus ∧ w.pc cpu = .idle ∧ (obj ∈ w.live ∨ obj ≠ 0 ∧ obj ∉ w.clients)
  | op => w.Enabled c op

/-- The copy of the first free is in the magazine of this CPU, or the slab was given back. -/
def Caught (w : World) (cpu obj : Nat) : Prop :=
  obj ∈ w.s.cpu cpu ∨ (w.s.slab (objToSlab obj)).magic ≠ slabMagic

def StepCaught (w w' : World) : Prop :=
  ∃ op, w.EnabledAny c op ∧ (∀ cpu obj, op = .free cpu obj → obj ∉ w.live → w.Caught cpu obj) ∧
    w.step c op = .ok w'

end World

variable {c : KmemCache} {w w' : World}

theorem free_caught {cpu obj : Nat} (h0 : obj ≠ 0) (h : w.Caught cpu obj) :
    ∃ p, w.step c (.free cpu obj) = .error p := by
  show ∃ p, w.free cpu obj = .error p
  unfold World.free
  rw [if_neg h0]
  by_cases hm : (w.s.slab (objToSlab obj)).magic ≠ slabMagic
  · exact ⟨_, by rw [if_pos hm]⟩
  · refine ⟨.magazineDoubleFree, ?_⟩
    rw [if_neg hm, if_pos (h.resolve_right hm)]

/-- A caught second free has no next state, so the others are steps of careful clients. -/
theorem step_of_stepCaught (h : World.StepCaught c w w') : World.Step c w w' := by
  obtain ⟨op, hop, hcaught, he⟩ := h
  refine ⟨op, ?_, he⟩
  cases op with
  | free cpu obj =>
    obtain ⟨hcpu, hidle, hobj⟩ := hop
    by_cases hl : obj ∈ w.live
    · exact ⟨hcpu, hidle, hl⟩
    · obtain ⟨p, hp⟩ := free_caught (hobj.resolve_left hl).1 (hcaught cpu obj rfl hl)
      rw [hp] at he
      cases he
  | _ => exact hop

theorem stepCaught_of_step (h : World.Step c w w') : World.StepCaught c w w' := by
  obtain ⟨op, hop, he⟩ := h
  refine ⟨op, ?_, ?_, he⟩
  · cases op with
    | free cpu obj => exact ⟨hop.1, hop.2.1, .inl hop.2.2⟩
    | _ => exact hop
  · rintro cpu obj rfl hl
    exact absurd hop.2.2 hl

/-- **Caught second frees.** In every run in which each second free is a caught one, every such
free panics and no object is at two clients. -/
theorem caught_frees_safe {size align : Nat} (hsize : size < 2 ^ 64)
    (ha : align = 0 ∨ ∃ k < 64, align = 2 ^ k) (hc : kmemCacheCreate size align = some (some c))
    (hfit : size + max align 8 ≤ 2 ^ 32) {slab : Nat → Slab} {next : Nat → Nat} {w : World}
    (hrun : ReflTransGen (World.StepCaught c) (World.init slab next) w) :
    w.live.Nodup ∧ ∀ cpu obj, w.EnabledAny c (.free cpu obj) → obj ∉ w.live → w.Caught cpu obj →
      ∃ p, w.step c (.free cpu obj) = .error p := by
  have hf := kmemCacheCreate_fits hsize ha hc
  rw [if_pos hfit] at hf
  have hrun' := ReflTransGen.mono (fun _ _ h => step_of_stepCaught h) _ _ hrun
  obtain ⟨⟨fl, hok⟩, -⟩ := safe_of_fits hf ⟨slab, next, hrun'⟩
  refine ⟨(nodup_append.1 hok.clientsNodup).1, fun cpu obj hop hl hcaught => ?_⟩
  exact free_caught (hop.2.2.resolve_left hl).1 hcaught

/-- The state after a step that does not panic. -/
def World.after (c : KmemCache) (w : World) (op : Op) : World :=
  match w.step c op with
  | .ok w' => w'
  | .error _ => w

theorem World.step_after {op : Op} (h : (w.step c op).isOk = true) :
    w.step c op = .ok (w.after c op) := by
  unfold World.after
  cases hs : w.step c op with
  | ok w' => rfl
  | error p => rw [hs] at h; cases h

/-- Objects of 1024 bytes, three to a page. -/
def cache1024 : KmemCache := ⟨1024, 8, 3⟩

/-- CPU 0 has filled its magazine with the three objects of a page and allocated the third. -/
def allocatedOnce : World :=
  (((firstSlab cache1024).after cache1024 (.go 0 none)).after cache1024 (.go 0 none)).after cache1024
    (.go 0 none)

theorem allocatedOnce_reachable : Reachable cache1024 allocatedOnce := by
  have nopage : ∀ {w : World}, w.Enabled cache1024 (.go 0 none) := ⟨by decide, nofun⟩
  exact ((firstSlab_reachable.step _ nopage (World.step_after (by decide))).step _ nopage
    (World.step_after (by decide))).step _ nopage (World.step_after (by decide))

theorem caught_frees_safe_cpu0 : ∃ w p, Reachable cache1024 w ∧ w.live.Nodup ∧
    w.Caught 0 6192 ∧ w.step cache1024 (.free 0 6192) = .error p := by
  have hreach : Reachable cache1024 (allocatedOnce.after cache1024 (.free 0 6192)) :=
    allocatedOnce_reachable.step (.free 0 6192) ⟨by decide, rfl, by decide⟩ (World.step_after (by decide))
  have hreach' := hreach
  obtain ⟨slab, next, hrun⟩ := hreach
  obtain ⟨hnd, hpanic⟩ := @caught_frees_safe cache1024 1024 8 (by decide)
    (.inr ⟨3, by decide, by decide⟩) (by decide) (by decide) slab next _
    (ReflTransGen.mono (fun _ _ h => stepCaught_of_step h) _ _ hrun)
  have hcaught : (allocatedOnce.after cache1024 (.free 0 6192)).Caught 0 6192 := .inl (by decide)
  obtain ⟨p, hp⟩ := hpanic 0 6192 ⟨by decide, rfl, .inr ⟨by decide, by decide⟩⟩ (by decide) hcaught
  exact ⟨_, p, hreach', hnd, hcaught, hp⟩

section Uncaught

variable {cpu cpu' obj : Nat} {l rest : List Nat}

theorem alloc_push : (w.push cpu obj).alloc cpu = { w with live := obj :: w.live } := by
  simp [World.alloc, World.pop, World.push, setCpu]

/-- Allocations on an idle CPU hand out its magazine from the top. -/
theorem alloc_magazine (hcpu : cpu < maxCpus) (hidle : w.pc cpu = .idle)
    (hmag : w.s.cpu cpu = l ++ rest) :
    ∃ w', ReflTransGen (World.Step c) w w' ∧ w'.live = l.reverse ++ w.live := by
  induction l generalizing w with
  | nil => exact ⟨w, .refl, rfl⟩
  | cons o l ih =>
    have halloc : w.alloc cpu = { w with s := w.s.setCpu cpu (l ++ rest), live := o :: w.live } := by
      simp [World.alloc, World.pop, hmag]
    obtain ⟨w', hrun, hlive⟩ := ih (w := w.alloc cpu) (by rwa [halloc]) (by simp [halloc, setCpu])
    refine ⟨w', .head ⟨.alloc cpu, ⟨hcpu, hidle⟩, rfl⟩ hrun, ?_⟩
    rw [hlive, halloc, reverse_cons, append_assoc]
    rfl

/-- A second free that is not caught goes through. Where it finds room and the first copy is in the
magazine of an idle CPU, allocations then hand the object out twice. -/
theorem uncaught_free_twice (hop : w.EnabledAny c (.free cpu obj)) (hl : obj ∉ w.live)
    (huncaught : ¬w.Caught cpu obj) (hroom : (w.s.cpu cpu).length < w.s.magLimit)
    (hcpu' : cpu' < maxCpus) (hidle' : w.pc cpu' = .idle) (hobj : obj ∈ w.s.cpu cpu') :
    ∃ w₁ w₂, w.step c (.free cpu obj) = .ok w₁ ∧ ReflTransGen (World.Step c) w₁ w₂ ∧
      2 ≤ w₂.live.count obj := by
  obtain ⟨hcpu, hidle, hop⟩ := hop
  obtain ⟨hmag, hmagic⟩ := not_or.1 huncaught
  have hfree : w.step c (.free cpu obj) = .ok (w.push cpu obj) := by
    show w.free cpu obj = _
    rw [World.free, if_neg (hop.resolve_left hl).1, if_neg hmagic, if_neg hmag, erase_of_not_mem hl]
    exact if_neg hroom.not_ge
  obtain ⟨l, rest, hsplit⟩ := append_of_mem hobj
  rw [append_cons] at hsplit
  obtain ⟨w₂, hrun, hlive⟩ :=
    alloc_magazine (c := c) (w := { w with live := obj :: w.live }) hcpu' hidle' hsplit
  refine ⟨_, w₂, hfree, .head ⟨.alloc cpu, ⟨hcpu, hidle⟩, congrArg _ alloc_push⟩ hrun, ?_⟩
  rw [hlive, count_append, count_reverse, count_append, count_singleton_self, count_cons_self]
  omega

end Uncaught

def freedTwice : World :=
  (allocatedOnce.after cache1024 (.free 0 6192)).after cache1024 (.free 1 6192)

/-- An allocation on each of the two CPUs then returns it. -/
theorem double_free_unnoticed : kmemCacheCreate 1024 8 = some (some cache1024) ∧
    ∃ w w' : World, Reachable cache1024 w ∧ w.Enabled cache1024 (.free 0 6192) ∧
      w.step cache1024 (.free 0 6192) = .ok w' ∧ w'.live = [] ∧
      w'.EnabledAny cache1024 (.free 1 6192) ∧ w'.step cache1024 (.free 1 6192) = .ok freedTwice ∧
      ∃ w'', ReflTransGen (World.Step cache1024) freedTwice w'' ∧ w''.live = [6192, 6192] := by
  refine ⟨by decide, allocatedOnce, allocatedOnce.after cache1024 (.free 0 6192),
    allocatedOnce_reachable, ⟨by decide, rfl, by decide⟩, World.step_after (by decide), by decide,
    ⟨by decide, rfl, .inr ⟨by decide, by decide⟩⟩, World.step_after (by decide),
    (freedTwice.after cache1024 (.alloc 0)).after cache1024 (.alloc 1), ?_, by decide⟩
  exact (ReflTransGen.single ⟨.alloc 0, ⟨by decide, rfl⟩, World.step_after rfl⟩).tail
    ⟨.alloc 1, ⟨by decide, rfl⟩, World.step_after rfl⟩

end ZzzOs.Mm.Slabs
