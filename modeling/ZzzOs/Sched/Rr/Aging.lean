import ZzzOs.Sched.Rr.Queue

/-!
# Aging

`rr_aging` goes through the levels from 2 up and splices a starved one into the level it has just
passed. So no task moves twice, and whether a level is starved is settled by the queue at entry
(`Filed.rrAging_moves`).
-/

namespace ZzzOs.Sched.Rr.Rq

open Function List

variable {rq rq' : Rq} {now : UInt64} {j k : Nat}

def Filed (rq : Rq) : Prop :=
  rq.Marked ∧ ∀ k < prioNums, ∀ t ∈ rq.runnable k, (rq.tasks t).prio = k

/-- Level `k`, from 2 up and below `j`, has tasks and was not served for `AGING_THRESHOLD_NS`, as the
clock counts, which wraps. -/
def Starves (rq : Rq) (now : UInt64) (j k : Nat) : Prop :=
  2 ≤ k ∧ k < j ∧ rq.runnable k ≠ [] ∧ agingThresholdNs ≤ now - rq.prioLastServed k

instance : Decidable (rq.Starves now j k) := inferInstanceAs (Decidable (_ ∧ _))

/-- The queue `rq'` that the levels below `j` leave once they have had their turn. -/
structure Aged (rq : Rq) (now : UInt64) (j : Nat) (rq' : Rq) : Prop where
  level : ∀ k, rq'.runnable k = (if rq.Starves now j k then [] else rq.runnable k) ++
    if rq.Starves now j (k + 1) then rq.runnable (k + 1) else []
  task : ∀ t, rq'.tasks t =
    if rq.Starves now j (rq.tasks t).prio ∧ t ∈ rq.runnable (rq.tasks t).prio then
      { rq.tasks t with prio := (rq.tasks t).prio - 1 } else rq.tasks t
  marked : rq'.Marked
  nrRunning : rq'.nrRunning = rq.nrRunning
  served : ∀ k ≥ j, rq'.prioLastServed k = rq.prioLastServed k

theorem Marked.ageLevel (h : rq.Marked) (h2 : 2 ≤ j) (hlt : j < prioNums) :
    (rq.ageLevel now j).Marked := by
  rw [Rq.ageLevel]
  split
  · exact h
  rename_i hbit
  split
  · exact h
  have hne : j - 1 ≠ j := by omega
  have hmove : rq.runnable j ≠ [] := by
    rw [and_bit_eq_zero hlt] at hbit
    exact (h j hlt).1 (by simpa using hbit)
  intro k hk
  rw [getLsbD_clear_bit hk, getLsbD_or_bit hk]
  simp only [update_apply]
  have := h k hk
  split
  · rename_i heq
    simp [heq]
  split
  · rename_i heq
    simp [heq, hne, hmove]
  · rename_i hk1 hk2
    simpa [hk1, hk2] using this

theorem not_starves (h : j ≤ k) : ¬ rq.Starves now j k := fun hs => by
  have := hs.2.1
  omega

theorem starves_succ : rq.Starves now (j + 1) k ↔
    rq.Starves now j k ∨ (k = j ∧ rq.Starves now (j + 1) j) := by
  rcases eq_or_ne k j with rfl | hne
  · simp [not_starves]
  · have : k < j + 1 ↔ k < j := by omega
    simp [Starves, hne, this]

/-- The turn of level `j` -/
theorem Aged.ageLevel (ha : rq.Aged now j rq') (h : rq.Filed) (h2 : 2 ≤ j) (hlt : j < prioNums) :
    rq.Aged now (j + 1) (rq'.ageLevel now j) := by
  -- level `j` and its clock are still those of `rq`
  have hlevel : rq'.runnable j = rq.runnable j := by
    simp [ha.level, not_starves]
  have hacts : rq.Starves now (j + 1) j ↔ ¬ rq'.prioBitmap &&& bit j = 0 ∧
      ¬ now - rq'.prioLastServed j < agingThresholdNs := by
    rw [and_bit_eq_zero hlt, Bool.not_eq_false, ha.marked j hlt, hlevel, ha.served j le_rfl]
    simp [Starves, h2]
  have hmarked : (rq'.ageLevel now j).Marked := ha.marked.ageLevel h2 hlt
  by_cases hs : rq.Starves now (j + 1) j
  · obtain ⟨hbit, hold⟩ := hacts.1 hs
    have hiff (k : Nat) : rq.Starves now (j + 1) k ↔ rq.Starves now j k ∨ k = j := by
      rw [starves_succ, and_iff_left hs]
    rw [Rq.ageLevel, if_neg hbit, if_neg hold] at hmarked ⊢
    refine ⟨fun k => ?_, fun t => ?_, hmarked, ha.nrRunning, fun k hk => ?_⟩
    · simp only [update_apply, hiff, hlevel]
      split
      · rename_i hk
        simp [hk, not_starves]
      split
      · rename_i hk
        have hj : k + 1 = j := by omega
        have hne : k ≠ j := by omega
        simp [← hk, hj, hne, ha.level, not_starves]
      · have : k + 1 ≠ j := by omega
        simp_all [ha.level]
    · simp only [hiff, hlevel, ha.task]
      by_cases hin : t ∈ rq.runnable j
      · simp [hin, h.2 j hlt t hin, not_starves]
      · rcases eq_or_ne (rq.tasks t).prio j with hj | hj
        · simp [hj, hin]
        · simp [hj, hin]
    · exact (update_of_ne (by omega) ..).trans (ha.served k (by omega))
  · have hsame : rq'.ageLevel now j = rq' := by
      rw [Rq.ageLevel, ← ite_or, if_pos]
      rw [hacts] at hs
      tauto
    rw [hsame]
    have hiff (k : Nat) : rq.Starves now (j + 1) k ↔ rq.Starves now j k := by
      simp [starves_succ (k := k), hs]
    exact ⟨fun k => by simp only [hiff, ha.level], fun t => by simp only [hiff, ha.task], ha.marked,
      ha.nrRunning, fun k hk => ha.served k (by omega)⟩

theorem Filed.aged (h : rq.Filed) (n : Nat) (hn : n + 2 ≤ prioNums) :
    rq.Aged now (n + 2) ((range' 2 n).foldl (fun rq prio => rq.ageLevel now prio) rq) := by
  induction n with
  | zero =>
    have hno (k : Nat) : ¬ rq.Starves now 2 k := fun hs => by
      have := hs.1
      have := hs.2.1
      omega
    exact ⟨fun k => by simp [hno], fun t => by simp [hno], h.1, rfl, fun _ _ => rfl⟩
  | succ n ih =>
    have := (ih (by omega)).ageLevel h (by omega) (by omega)
    rwa [range'_1_concat, foldl_append, Nat.add_comm 2 n]

theorem Inv.rrAging (h : rq.Inv) : (rq.rrAging now).Inv := by
  have ha : rq.Aged now prioNums (rq.rrAging now) :=
    Filed.aged ⟨h.bit_iff, fun k _ t ht => ((h.mem_iff k t).1 ht).2⟩ 30 le_rfl
  refine ⟨fun t => ?_, fun t => ?_, fun k => ?_, fun k t => ?_, ha.marked, ?_⟩
  · rw [ha.task]
    split_ifs
    · exact (Nat.sub_le ..).trans_lt (h.prio_lt t)
    · exact h.prio_lt t
  · rw [ha.task]
    split_ifs <;> exact h.base_lt t
  · rw [ha.level]
    split_ifs
    · simp [h.nodup]
    · simp
    · refine (h.nodup k).append (h.nodup _) fun t ht ht' => ?_
      have := ((h.mem_iff _ t).1 ht).2.symm.trans ((h.mem_iff _ t).1 ht').2
      omega
    · simp [h.nodup]
  · rw [ha.level, ha.task, mem_append, mem_ite_nil_left, mem_ite_nil_right]
    cases hon : (rq.tasks t).onRq with
    | false =>
      have hout (k : Nat) : t ∉ rq.runnable k := fun ht => by simpa [hon] using (h.mem_iff k t).1 ht
      simp [hout, hon]
    | true =>
      have hin (k : Nat) : t ∈ rq.runnable k ↔ (rq.tasks t).prio = k := by simp [h.mem_iff, hon]
      by_cases hs : rq.Starves now prioNums (rq.tasks t).prio
      · have h2 := hs.1
        simp only [hin, hs, true_and, if_true, hon]
        constructor
        · rintro (⟨hk, rfl⟩ | ⟨-, hk⟩)
          · exact absurd hs hk
          · omega
        · rintro rfl
          rw [Nat.sub_add_cancel (by omega)]
          exact .inr ⟨hs, rfl⟩
      · simp only [hin, hs, false_and, if_false, hon, true_and]
        constructor
        · rintro (⟨-, hk⟩ | ⟨hk, heq⟩)
          · exact hk
          · exact absurd (heq ▸ hk) hs
        · rintro rfl
          exact .inl ⟨hs, rfl⟩
  · -- what leaves the levels is what arrives one level up
    let r (k : Nat) := (if rq.Starves now prioNums k then rq.runnable k else []).length
    have hr : ∑ k ∈ Finset.range prioNums, r (k + 1) = ∑ k ∈ Finset.range prioNums, r k := by
      have := (Finset.sum_range_succ' r prioNums).symm.trans (Finset.sum_range_succ r prioNums)
      simpa [r, Starves] using this
    rw [ha.nrRunning, h.count, linked, linked]
    simp only [ha.level, length_append, Finset.sum_add_distrib]
    rw [hr, ← Finset.sum_add_distrib]
    refine Finset.sum_congr rfl fun k _ => ?_
    dsimp only [r]
    split_ifs <;> simp

/-- **`rr_aging` moves the starved levels, and only them**: the tasks of each stand behind those that
were waiting one level up and stayed there, in their order and with the new priority. -/
theorem Filed.rrAging_moves (h : rq.Filed) (now : UInt64) :
    rq.Aged now prioNums (rq.rrAging now) ∧ (rq.rrAging now).runnable 0 = rq.runnable 0 ∧
      (rq.rrAging now).Filed ∧
      ∀ t, (∃ k < prioNums, t ∈ (rq.rrAging now).runnable k) ↔
        ∃ k < prioNums, t ∈ rq.runnable k := by
  have haged : rq.Aged now prioNums (rq.rrAging now) := h.aged 30 le_rfl
  have hlevel := haged.level
  refine ⟨haged, ?_, ⟨haged.marked, fun k hk t ht => ?_⟩, fun t => ⟨?_, ?_⟩⟩
  · simp [hlevel, Starves]
  · rw [hlevel, mem_append] at ht
    rw [haged.task]
    rcases ht with ht | ht <;> split at ht
    · cases ht
    · rename_i hs
      simp [h.2 k hk t ht, hs]
    · rename_i hs
      simp [h.2 _ hs.2.1 t ht, hs, ht]
    · cases ht
  · rintro ⟨k, hk, ht⟩
    rw [hlevel, mem_append] at ht
    rcases ht with ht | ht <;> split at ht
    · cases ht
    · exact ⟨k, hk, ht⟩
    · rename_i hs
      exact ⟨k + 1, hs.2.1, ht⟩
    · cases ht
  · rintro ⟨k, hk, ht⟩
    by_cases hs : rq.Starves now prioNums k
    · obtain ⟨i, rfl⟩ := Nat.exists_eq_add_of_le' hs.1
      exact ⟨i + 1, by omega, by simp [hlevel, hs, ht]⟩
    · exact ⟨k, hk, by simp [hlevel, hs, ht]⟩

/-- Tasks 1 and 2 wait at levels 2 and 3. -/
def twoLevels : Rq where
  tasks t := ⟨t + 1, 1, 0, true, .running⟩
  runnable k := if k = 2 then [1] else if k = 3 then [2] else []
  prioBitmap := 0xc#32
  nrRunning := 2
  prioLastServed _ := 0
  curr := 0
  idle := 0

/-- Both move, each by one level. -/
theorem twoLevels_moves : twoLevels.Filed ∧ (twoLevels.rrAging agingThresholdNs).runnable 1 = [1] ∧
    (twoLevels.rrAging agingThresholdNs).runnable 2 = [2] := by
  have h : twoLevels.Filed := ⟨by unfold Marked; decide, by decide⟩
  have hlevel := (h.rrAging_moves agingThresholdNs).1.level
  exact ⟨h, (hlevel 1).trans (by decide), (hlevel 2).trans (by decide)⟩

end ZzzOs.Sched.Rr.Rq
