import ZzzOs.Mm.Slab.Run

/-!
# Caches as they are created

`kmem_cache_create` narrows the object size to 32 bits when it divides. Below `2 ^ 32` the cache keeps
its invariants in every run (`created_ok_iff`). From there on a cache is still returned whenever the low
half of the size fits a page, and its first allocation panics or hands out an object that leaves its
page.
-/

namespace ZzzOs.Mm.Slabs

open Function Lib

def Reachable (c : KmemCache) (w : World) : Prop :=
  ∃ slab next, Relation.ReflTransGen (World.Step c) (World.init slab next) w

def Safe (c : KmemCache) (w : World) : Prop :=
  (∃ fl, CacheOk c w fl) ∧ ∀ op, w.Enabled c op → ∃ w', w.step c op = .ok w'

theorem safe_of_fits {c : KmemCache} (hf : Fits c) {w : World} (hw : Reachable c w) : Safe c w := by
  obtain ⟨slab, next, hrun⟩ := hw
  obtain ⟨fl, det, h⟩ := run_spec hf hrun
  refine ⟨⟨fl, cacheOk_of_inv h⟩, fun op hop => ?_⟩
  obtain ⟨w', -, -, he, -⟩ := step_spec h hop
  exact ⟨w', he⟩

/-! ## Objects larger than a page -/

section Oversized

variable {c : KmemCache} {s s' : Slabs} {r : Option Nat}

theorem Reachable.step {w w' : World} (hw : Reachable c w) (op : Op) (hop : w.Enabled c op)
    (he : w.step c op = .ok w') : Reachable c w' := by
  obtain ⟨slab, next, hrun⟩ := hw
  exact ⟨slab, next, hrun.tail ⟨op, hop, he⟩⟩

/-- A cache with oversized objects is not in order once a client holds one. -/
theorem not_ok_of_client (hbig : 2 ^ 32 ≤ c.objectSize) {w : World} {o : Nat} (ho : o ∈ w.clients)
    (fl : Nat → List Nat) : ¬ CacheOk c w fl := by
  intro h
  obtain ⟨x, -, -, h1, h2⟩ := h.inside o ho
  rw [pageSize_eq] at h2
  omega

theorem allocObj_cpu {x : Nat} (he : allocObj c s x = .ok (r, s')) : r.isSome ∧ s'.cpu = s.cpu := by
  unfold allocObj at he
  dsimp only at he
  split_ifs at he
  all_goals
    cases he
    exact ⟨rfl, rfl⟩

theorem kmemCacheAllocLocked_cpu
    (he : kmemCacheAllocLocked c s = .ok (r, s')) : s'.cpu = s.cpu := by
  unfold kmemCacheAllocLocked at he
  cases hp : s.pickPartial with
  | none => rw [hp] at he; cases he; rfl
  | some a =>
    rw [hp] at he
    rw [(allocObj_cpu he).2]
    unfold pickPartial at hp
    split at hp
    · cases hp; rfl
    · cases hp; rfl
    · cases hp

theorem refillLocked_mono (cpu : Nat) : ∀ (n : Nat) {s s' : Slabs},
    refillLocked c cpu n s = .ok s' → (s.cpu cpu).length ≤ (s'.cpu cpu).length := by
  intro n
  induction n with
  | zero => intro s s' he; cases he; exact Nat.le_refl _
  | succ n ih =>
    intro s s' he
    rw [refillLocked] at he
    cases ha : kmemCacheAllocLocked c s with
    | error e => rw [ha] at he; cases he
    | ok r =>
      obtain ⟨o, s₁⟩ := r
      have hcpu := kmemCacheAllocLocked_cpu ha
      rw [ha] at he
      cases o with
      | none => cases he; rw [hcpu]
      | some o =>
        have := ih he
        simp only [setCpu, update_self, List.length_cons, hcpu] at this
        omega

/-- CPU 0 allocates from a new cache and waits for the page at 4096 to be added. -/
def firstSlab (c : KmemCache) : World where
  s := ((Slabs.init (fun _ => ⟨0, 0, 0⟩) fun _ => 0).allocSlabDetached c 4096).addSlabLocked 4096
  pc := update (fun _ => .idle) 0 (.refill 8)
  calls := []
  live := []
  pages := {4096}

theorem firstSlab_reachable : Reachable c (firstSlab c) := by
  have nopage : ∀ {w : World}, w.Enabled c (.go 0 none) := ⟨by decide, nofun⟩
  have h0 : Reachable c (World.init (fun _ => ⟨0, 0, 0⟩) fun _ => 0) := ⟨_, _, .refl⟩
  have h1 := h0.step (.alloc 0) ⟨by decide, rfl⟩ rfl
  have h2 := h1.step (.go 0 none) nopage rfl
  have h3 := h2.step (.go 0 (some 4096))
    ⟨by decide, fun mem h => by cases h; exact ⟨⟨by decide, by decide, by decide⟩, Multiset.notMem_zero _⟩⟩ rfl
  have h4 := h3.step (.go 0 none) nopage rfl
  have hpc : (firstSlab c).pc = update (update (update (update
      (fun _ => .idle) 0 (.refill 8)) 0 (.detach 8)) 0 (.attach 8 4096)) 0 (.refill 8) := by
    simp [firstSlab]
  have he : firstSlab c = { firstSlab c with pc := (firstSlab c).pc } := rfl
  rw [he, hpc]
  exact h4

/-- The first allocation from a cache with oversized objects panics, or leaves the page. -/
theorem unsafe_of_big (hbig : 2 ^ 32 ≤ c.objectSize) : ∃ w, Reachable c w ∧ ¬ Safe c w := by
  by_contra hall
  push Not at hall
  have nopage : ∀ {w : World}, w.Enabled c (.go 0 none) := ⟨by decide, nofun⟩
  have hreach := firstSlab_reachable (c := c)
  -- the refill finds the new slab, so it panics or brings an object
  obtain ⟨s', hs', hne⟩ : ∃ s', refillLocked c 0 8 (firstSlab c).s = .ok s' ∧ s'.cpu 0 ≠ [] := by
    obtain ⟨w', he⟩ := (hall _ hreach).2 _ nopage
    cases hr : refillLocked c 0 8 (firstSlab c).s with
    | error e =>
      have : (firstSlab c).step c (.go 0 none) = .error e := by
        show (refillLocked c 0 8 (firstSlab c).s >>= _) = _
        rw [hr]; rfl
      rw [this] at he; cases he
    | ok s' =>
      refine ⟨s', rfl, fun hnil => ?_⟩
      rw [refillLocked] at hr
      cases ha : allocObj c ({ (firstSlab c).s.listDel 4096 with partialSlabs := [4096] }) 4096 with
      | error e =>
        have hk : kmemCacheAllocLocked c (firstSlab c).s = .error e := ha
        rw [hk] at hr; cases hr
      | ok r =>
        obtain ⟨o, s₁⟩ := r
        have hk : kmemCacheAllocLocked c (firstSlab c).s = .ok (o, s₁) := ha
        obtain ⟨ho, -⟩ := allocObj_cpu ha
        obtain ⟨o, rfl⟩ := Option.isSome_iff_exists.1 ho
        rw [hk] at hr
        have := refillLocked_mono 0 7 hr
        rw [hnil] at this
        simp [setCpu] at this
  obtain ⟨w, hw, hpc, hcpu⟩ : ∃ w, Reachable c w ∧ w.pc 0 = .take ∧ w.s.cpu 0 ≠ [] := by
    have hgo : (firstSlab c).step c (.go 0 none) =
        if (s'.cpu 0).length ≥ 8 then .ok ({ firstSlab c with s := s' }.setPc 0 .take)
        else .ok ({ firstSlab c with s := s' }.setPc 0 (.detach 8)) := by
      show (refillLocked c 0 8 (firstSlab c).s >>= _) = _
      rw [hs']
      rfl
    split at hgo
    · exact ⟨_, hreach.step _ nopage hgo, rfl, hne⟩
    · exact ⟨_, (hreach.step _ nopage hgo).step (.go 0 none) nopage rfl, rfl, hne⟩
  obtain ⟨o, l, hl⟩ := List.exists_cons_of_ne_nil hcpu
  have hpop : w.step c (.go 0 none) = .ok ((w.pop 0).setPc 0 .idle) := by
    simp only [World.step, World.go, hpc]
  have hlive : o ∈ ((w.pop 0).setPc 0 .idle).live := by
    simp [World.setPc, World.pop, hl]
  obtain ⟨fl, hok⟩ := (hall _ (hw.step _ nopage hpop)).1
  exact not_ok_of_client hbig (List.mem_append.2 (.inl hlive)) fl hok

end Oversized

/-! ## Every cache -/

/-- **A created cache is safe in every run exactly when its objects are smaller than `2 ^ 32` bytes**:
each slab is on the list its use count says, its free list is a chain of distinct slots of the right
length, every slot is in one place, the objects at clients are disjoint and inside their pages, and no
step panics. -/
theorem created_ok_iff {size align : Nat} (hsize : size < 2 ^ 64)
    (ha : align = 0 ∨ ∃ k < 64, align = 2 ^ k) {c : KmemCache}
    (hc : kmemCacheCreate size align = some (some c)) :
    size + max align 8 ≤ 2 ^ 32 ↔ ∀ w, Reachable c w → Safe c w := by
  have h := kmemCacheCreate_fits hsize ha hc
  split_ifs at h with hle
  · exact ⟨fun _ w hw => safe_of_fits h hw, fun _ => hle⟩
  · refine ⟨fun h' => absurd h' hle, fun hall => ?_⟩
    obtain ⟨w, hw, hns⟩ := unsafe_of_big h
    exact absurd (hall w hw) hns

theorem created_ok_iff_1024 : ∃ c, kmemCacheCreate 1024 8 = some (some c) ∧
    ∀ w, Reachable c w → Safe c w := by
  refine ⟨⟨1024, 8, 3⟩, by decide, ?_⟩
  exact (@created_ok_iff 1024 8 (by decide) (.inr ⟨3, by decide, by decide⟩) _
    (by decide)).1 (by decide)

/-- A cache for objects of `2 ^ 32 + 8` bytes is created with 506 objects a page. -/
theorem oversized_cache_unsafe : ∃ c, kmemCacheCreate (2 ^ 32 + 8) 8 = some (some c) ∧
    c.objectSize = 2 ^ 32 + 8 ∧ c.objectsPerSlab = 506 ∧ ∃ w, Reachable c w ∧ ¬ Safe c w :=
  ⟨⟨2 ^ 32 + 8, 8, 506⟩, by decide, rfl, rfl, unsafe_of_big (by decide)⟩

end ZzzOs.Mm.Slabs
