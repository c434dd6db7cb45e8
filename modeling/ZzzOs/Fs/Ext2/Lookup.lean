import ZzzOs.Fs.Ext2.SetMapping

/-!
# `ext2_block_mapping` without errors

The indirect blocks are read through the cache. A call returns the block at the end of its path and
changes nothing but the cache.
-/

namespace ZzzOs.Fs.Ext2

open Function Nat List Lib

variable {m : Nat} {G : Geometry} {s : Sys m} {x : Fin m} {io io' : Io} {b i k : Nat}
  {cache : IndirectCache}

theorem Sys.Consistent.recache (h : (s.set x io).Consistent G)
    (hc : (s.set x (io.setCache cache)).Cached G) : (s.set x (io.setCache cache)).Consistent G where
  image := by
    have hq : (io.setCache cache).fs.bdev.Quiet := h.image.quiet
    exact (h.image.congr hq rfl rfl rfl fun _ _ _ => rfl).1
  metaUsed := h.metaUsed
  nodup := h.nodup
  inside := h.inside
  used := h.used
  notMeta := h.notMeta
  count := h.count
  cached := hc

/-- An entry is filled with the contents of an indirect block that no other entry holds. -/
theorem Sys.Cached.fill {data : Bytes} (e : Fin indirectCacheSize) (h : (s.set x io).Cached G)
    (hinner : ∃ p ∈ slots m, b ∈ (s.set x io).inner G p)
    (hcopy : ∀ y < G.blockSize, data y = io.fs.bdev.data (b * G.blockSize + y))
    (hne : ∀ e', e' ≠ e → (io.fs.indirectCache.entries e').valid = true →
      (io.fs.indirectCache.entries e').blockNo ≠ b) :
    (s.set x (io.setCache (io.fs.indirectCache.fill e b data))).Cached G := by
  have hself : (io.fs.indirectCache.fill e b data).entries e =
      { blockNo := b, data, lastUsed := io.fs.indirectCache.tick, valid := true } :=
    Function.update_self _ _ _
  have hother : ∀ {e'}, e' ≠ e → (io.fs.indirectCache.fill e b data).entries e' =
      io.fs.indirectCache.entries e' := fun he => Function.update_of_ne he _ _
  generalize io.fs.indirectCache.fill e b data = cache at *
  refine ⟨fun {e'} he => ?_, fun {e'} he y hy => ?_, fun {e₁ e₂} h1 h2 heq => ?_⟩
  · change (cache.entries e').valid = true at he
    change ∃ p ∈ slots m, (cache.entries e').blockNo ∈ _
    by_cases hee : e' = e
    · rw [hee, hself]
      exact hinner
    · rw [hother hee] at he ⊢
      exact h.inner he
  · change (cache.entries e').valid = true at he
    change (cache.entries e').data y = io.fs.bdev.data ((cache.entries e').blockNo * G.blockSize + y)
    by_cases hee : e' = e
    · rw [hee, hself]
      exact hcopy y hy
    · rw [hother hee] at he ⊢
      exact h.copy he y hy
  · change (cache.entries e₁).valid = true at h1
    change (cache.entries e₂).valid = true at h2
    change (cache.entries e₁).blockNo = (cache.entries e₂).blockNo at heq
    by_cases he1 : e₁ = e
    · by_cases he2 : e₂ = e
      · exact he1.trans he2.symm
      · rw [hother he2] at h2
        rw [he1, hself, hother he2] at heq
        exact absurd heq.symm (hne e₂ he2 h2)
    · rw [hother he1] at h1 heq
      by_cases he2 : e₂ = e
      · rw [he2, hself] at heq
        exact absurd heq (hne e₁ he1 h1)
      · rw [hother he2] at h2 heq
        exact h.inj h1 h2 heq

/-- A pointer is read from the cache, or from the disk into the cache. -/
theorem cacheRead_spec (h : (s.set x io).Consistent G) (hb0 : b ≠ 0)
    (hb : ∃ p ∈ slots m, b ∈ (s.set x io).inner G p) (hi : i < G.perBlock) :
    ∃ cache, ext2IndirectCacheRead G b i io = .ok (ptr G io.fs b i) (io.setCache cache) ∧
      (s.set x (io.setCache cache)).Consistent G := by
  rw [ext2IndirectCacheRead, if_neg hb0, if_neg (not_le.2 hi)]
  dsimp only
  cases hf : io.fs.indirectCache.ext2IndirectCacheFind b with
  | some e =>
    obtain ⟨hvalid, heb⟩ := IndirectCache.find_eq_some hf
    have hcopy := h.cached.copy hvalid
    rw [show ((s.set x io).fs.indirectCache.entries e).blockNo = b from heb] at hcopy
    refine ⟨io.fs.indirectCache.fill e (io.fs.indirectCache.entries e).blockNo
      (io.fs.indirectCache.entries e).data, ?_, h.recache (h.cached.fill e ?_ ?_ ?_)⟩
    · refine congrArg (EStateM.Result.ok · _) (Eq.trans ?_ (word_block hi))
      refine Bytes.word_congr fun y _ hy => (hcopy y ?_).trans (Bytes.slice_of_lt ?_).symm
      · exact lt_of_lt_of_le hy (perBlock_le hi)
      · exact lt_of_lt_of_le hy (perBlock_le hi)
    · rw [heb]
      exact hb
    · rw [heb]
      exact hcopy
    · intro e' he' hv heq
      exact he' (h.cached.inj hv hvalid heq)
  | none =>
    have hnone := IndirectCache.find_eq_none.1 hf
    rw [readBlock_eq (by exact h.image.quiet)]
    exact ⟨_, congrArg (EStateM.Result.ok · _) (word_block hi), h.recache
      (h.cached.fill _ hb (fun y hy => Bytes.slice_of_lt hy) fun e' _ hv => hnone e' hv)⟩

theorem readDown_spec (is : List Nat) {rest : List Nat} (h : (s.set x io).Consistent G) (hk : k < 15)
    (hlen : is.length + rest.length ≤ height k) (his : ∀ i ∈ is ++ rest, i < G.perBlock)
    (hb : (s.set x io).find G (x, k) is = b) :
    ∃ cache, readDown G b rest io =
        .ok ((s.set x io).find G (x, k) (is ++ rest)) (io.setCache cache) ∧
      (s.set x (io.setCache cache)).Consistent G := by
  induction rest generalizing is b io with
  | nil =>
    refine ⟨io.fs.indirectCache, ?_, h⟩
    rw [append_nil, hb]
    rfl
  | cons i rest ih =>
    rw [readDown]
    by_cases hb0 : b = 0
    · -- a hole: no indirect block
      refine ⟨io.fs.indirectCache, ?_, h⟩
      have hread : ext2IndirectCacheRead G b i io = .ok 0 io := by
        rw [ext2IndirectCacheRead, if_pos hb0]
      rw [bind_ok hread, if_pos rfl, find_append_zero (hb.trans hb0)]
      rfl
    · have hlt : is.length < height k := by
        rw [length_cons] at hlen
        omega
      have hi : i < G.perBlock := his i (by simp)
      have his' : ∀ i ∈ is, i < G.perBlock := fun l hl => his l (by simp [hl])
      have hinner : b ∈ (s.set x io).inner G (x, k) := by
        rw [← hb]
        exact PtrTree.find_mem_inner hlt his' (by rw [← Sys.find, hb]; exact hb0)
      obtain ⟨cache, hread, hcons⟩ := cacheRead_spec h hb0 ⟨_, mem_slots.2 hk, hinner⟩ hi
      have hstep : (s.set x io).find G (x, k) (is ++ [i]) = ptr G io.fs b i := by
        rw [find_concat (hb.symm ▸ hb0), hb]
        rfl
      have happ : is ++ i :: rest = (is ++ [i]) ++ rest := by simp
      rw [bind_ok hread]
      by_cases hnext : ptr G io.fs b i = 0
      · refine ⟨cache, ?_, hcons⟩
        rw [if_pos hnext, happ, find_append_zero (hstep.trans hnext)]
        rfl
      · rw [if_neg hnext, happ]
        obtain ⟨cache', heq, hcons'⟩ := ih (is ++ [i]) hcons (by
          simp only [length_append, length_cons, length_nil] at hlen ⊢
          omega) (by rw [← happ]; exact his) hstep
        exact ⟨cache', heq, hcons'⟩

/-- The block of an index, or 0. -/
def Sys.mapping (G : Geometry) (s : Sys m) (x : Fin m) (index : Nat) : Nat :=
  match blockPath G index with
  | none => 0
  | some (k, js) => s.find G (x, k) js

theorem blockMapping_spec (h : (s.set x io).Consistent G) (index : Nat) :
    match blockPath G index with
    | none => blockMapping G index io = .error (-efbig) io
    | some _ => ∃ cache,
      blockMapping G index io = .ok ((s.set x io).mapping G x index) (io.setCache cache) ∧
      (s.set x (io.setCache cache)).Consistent G := by
  unfold blockMapping Sys.mapping
  cases hpath : blockPath G index with
  | none => rfl
  | some path =>
    obtain ⟨k, js⟩ := path
    obtain ⟨hk, hlen, hjs, -⟩ := blockPath_spec hpath
    exact readDown_spec [] h hk (by rw [length_nil, zero_add, hlen]) hjs (set_root k)

end ZzzOs.Fs.Ext2
