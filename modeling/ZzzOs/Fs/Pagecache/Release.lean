import ZzzOs.Fs.Pagecache.Model

/-!
# Pages that leave the cache

Each way out of the page cache ends in `lru_cache_release_node`, which takes the page out, then has it
written back, and frees it whatever the result was. So it depends on the callers which pages leave:
`Spares` says it for each operation, and `runOps_logs_iff` for a run.
-/

namespace ZzzOs.Fs.Pagecache

open Lib List

variable {io : Env} {c c' c'' : Cache} {P : Release → Prop} {p q : Prop} {page : Page}

/-! ## The log -/

def LogsIff (P : Release → Prop) (c : Cache) (cond : Prop) (c' : Cache) : Prop :=
  ∃ new, c'.log = new ++ c.log ∧ ((∀ r ∈ new, P r) ↔ cond)

/-- No page left. -/
def SameLog (c c' : Cache) : Prop := c'.log = c.log

instance : Std.Refl SameLog := ⟨fun _ => rfl⟩

instance : IsTrans Cache SameLog := ⟨fun _ _ _ h h' => h'.trans h⟩

theorem SameLog.logsIff (h : SameLog c c') : LogsIff P c True c' :=
  ⟨[], h, by simp⟩

section

variable (h : LogsIff P c p c')

include h

theorem LogsIff.congr (hiff : p ↔ q) : LogsIff P c q c' := by
  obtain ⟨new, hlog, hnew⟩ := h
  exact ⟨new, hlog, hnew.trans hiff⟩

theorem LogsIff.trans (h' : LogsIff P c' q c'') : LogsIff P c (p ∧ q) c'' := by
  obtain ⟨new, hlog, hnew⟩ := h
  obtain ⟨new', hlog', hnew'⟩ := h'
  refine ⟨new' ++ new, by rw [hlog', hlog, append_assoc], ?_⟩
  rw [forall_mem_append, hnew, hnew', and_comm]

theorem LogsIff.stopped : LogsIff P c (p ∧ True) c' :=
  h.congr (by rw [and_true])

theorem LogsIff.then_same (h' : SameLog c' c'') : LogsIff P c p c'' := by
  obtain ⟨new, hlog, hnew⟩ := h
  exact ⟨new, h'.trans hlog, hnew⟩

theorem LogsIff.keeps {α : Type} {x : C α} (hx : Keeps SameLog x) :
    wp x (fun _ => LogsIff P c p) (fun _ => LogsIff P c p) c' :=
  wp_mono (fun _ _ => h.then_same) (fun _ _ => h.then_same) (hx c')

end

/-! ## Releases -/

/-- A property of a release that no page has whose data was dropped -/
class Careful (P : Release → Prop) : Prop where
  written : ∀ {r}, P r → r.page.dirty = true → r.written = true

def Clean (r : Release) : Prop := r.page.refcount = 0 ∧ r.page.dirty = false

def Kept (r : Release) : Prop := r.page.refcount = 0 ∧ (r.page.dirty = true → r.written = true)

instance : Careful Clean := ⟨fun h hd => absurd hd (by rw [h.2]; nofun)⟩

instance : Careful Kept := ⟨fun h => h.2⟩

theorem sync_isSome_of_reclaimable (h : page.reclaimable io = true) :
    (page.sync io).isSome = true := by
  unfold Page.reclaimable at h
  unfold Page.sync
  cases hdirty : page.dirty with
  | false => rfl
  | true =>
    simp only [hdirty, Bool.not_true, Bool.false_or, Bool.and_eq_true] at h
    simp only [h.2, if_true]
    split <;> rfl

theorem not_careful_of_sync_none [Careful P] (h : page.sync io = none) : ¬ P (page.release io) := by
  intro hP
  have hwritten := Careful.written hP
  unfold Page.sync at h
  unfold Page.release at hwritten
  cases hdirty : page.dirty with
  | false =>
    rw [hdirty] at h
    cases h
  | true =>
    cases hcan : page.canWriteback io <;> simp only [hdirty, hcan, if_true] at h hwritten
    · simp at hwritten
    · split at h <;> cases h

theorem lruCacheReleaseNode_logs [Careful P] (page : Page) :
    wp (lruCacheReleaseNode io page) (fun _ => LogsIff P c (P (page.release io)))
      (fun _ c' => LogsIff P c (P (page.release io)) c' ∧ ¬ P (page.release io)) c := by
  refine wp_bind.2 (wp_modify.2 ?_)
  cases hsync : page.sync io with
  | none => exact ⟨⟨[_], rfl, forall_mem_singleton⟩, not_careful_of_sync_none hsync⟩
  | some r => exact ⟨[_], rfl, forall_mem_singleton⟩

theorem lruCacheReleaseNode_logs_of_isSome (h : (page.sync io).isSome = true) :
    wp (lruCacheReleaseNode io page) (fun _ => LogsIff P c (P (page.release io))) (fun _ _ => False) c := by
  refine wp_bind.2 (wp_modify.2 ?_)
  obtain ⟨r, hr⟩ := Option.isSome_iff_exists.1 h
  rw [hr]
  exact ⟨[_], rfl, forall_mem_singleton⟩

/-! ## Reclaim -/

/-- The pages that `pagecache_reclaim_pages` takes: the `n` that were not used for the longest time, of
those that can be reclaimed. -/
def Cache.leastRecent (io : Env) (n : Nat) (c : Cache) : List Page :=
  (c.pages.reverse.filter (Page.reclaimable io)).take n

theorem reclaimLoop_logs (n : Nat) (pages : List Page) (k : Nat) (c : Cache) :
    wp (reclaimLoop io n pages k)
      (fun _ => LogsIff P c (∀ page ∈ (pages.filter (Page.reclaimable io)).take (n - k), P (page.release io)))
      (fun _ _ => False) c := by
  induction pages generalizing k c with
  | nil => exact ⟨[], rfl, by simp⟩
  | cons page rest ih =>
    unfold reclaimLoop
    split_ifs with hk
    · unfold pagecacheTryReclaimOne
      cases hrec : page.reclaimable io with
      | true =>
        rw [filter_cons_of_pos hrec, show n - k = n - (k + 1) + 1 by omega, take_succ_cons,
          if_pos rfl]
        refine wp_bind.2 (wp_bind.2 (wp_post (fun _ c₁ h₁ => ?_)
          (lruCacheReleaseNode_logs_of_isSome (P := P) (sync_isSome_of_reclaimable hrec))))
        refine wp_pure.2 (wp_post (fun _ c₂ h₂ => ?_) (ih (k + 1) c₁))
        exact (h₁.trans h₂).congr (by rw [forall_mem_cons])
      | false =>
        rw [filter_cons_of_neg (by rw [hrec]; nofun), if_neg nofun]
        exact ih k c
    · rw [Nat.sub_eq_zero_of_le (Nat.le_of_not_lt hk)]
      exact ⟨[], rfl, by simp⟩

theorem pagecacheReclaimPages_logs (P : Release → Prop) (n : Nat) (c : Cache) :
    wp (pagecacheReclaimPages io n)
      (fun _ => LogsIff P c (∀ page ∈ c.leastRecent io n, P (page.release io))) (fun _ _ => False) c :=
  reclaimLoop_logs n c.pages.reverse 0 c

/-! ## Pages of a mapping -/

/-- What `pagecache_get_page` takes out: if there is a new page, and too many of them then -/
def SparesGet (P : Release → Prop) (io : Env) (c : Cache) (m index : Nat) (creat : Bool) : Prop :=
  c.lookup m index = none → creat = true → io.alloc index = true →
    ∀ page ∈ c.leastRecent io (c.pages.length + 1 - maxPages), P (page.release io)

theorem pagecacheGetPage_logs (m index : Nat) (creat : Bool) :
    wp (pagecacheGetPage io m index creat) (fun _ => LogsIff P c (SparesGet P io c m index creat))
      (fun _ _ => False) c := by
  unfold pagecacheGetPage SparesGet
  refine wp_bind.2 (wp_get.2 ?_)
  cases hlookup : c.lookup m index with
  | some page => exact ⟨[], rfl, by simp⟩
  | none =>
    cases creat with
    | false => exact ⟨[], rfl, by simp⟩
    | true =>
      cases halloc : io.alloc index with
      | false => exact ⟨[], rfl, by simp⟩
      | true =>
        -- the new page is in use, so the pages to be taken are those of the cache before
        simp only [Bool.true_eq_false, if_false, forall_const]
        refine wp_bind.2 (wp_get.2 (wp_bind.2 (wp_modify.2 (wp_bind.2 (wp_get.2 ?_)))))
        rw [length_cons]
        split_ifs with hcount
        · refine wp_bind.2 (wp_bind.2 (wp_mono (x := pagecacheReclaimPages io _) (fun _ c' h => ?_)
            (fun _ _ h => h) (pagecacheReclaimPages_logs P _ _)))
          have hsame : ∀ new : Page, new.refcount = 1 →
              ((new :: c.pages).reverse.filter (Page.reclaimable io)) =
                c.pages.reverse.filter (Page.reclaimable io) := by
            intro new hnew
            rw [reverse_cons, filter_append, filter_cons_of_neg, filter_nil, append_nil]
            simp [Page.reclaimable, hnew]
          unfold Cache.leastRecent at h ⊢
          rw [hsame _ rfl] at h
          exact h
        · rw [Nat.sub_eq_zero_of_le (Nat.le_of_not_lt hcount)]
          exact ⟨[], rfl, by simp [Cache.leastRecent]⟩

theorem pagecachePutPage_sameLog (id : Nat) : Keeps SameLog (pagecachePutPage id) := by
  refine Keeps.get.bind fun c => ?_
  cases c.page id with
  | none => exact .throw
  | some page => exact .modify fun _ => rfl

theorem putPages_sameLog (ids : List Nat) : Keeps SameLog (putPages ids) := by
  induction ids with
  | nil => exact .pure
  | cons id ids ih => exact (pagecachePutPage_sameLog id).bind fun _ => ih

theorem fillPages_sameLog (id : Nat) (more : List Nat) : Keeps SameLog (fillPages io id more) := by
  refine Keeps.get.bind fun c => ?_
  cases c.page id with
  | none => exact .throw
  | some page =>
    have hmodify : ∀ {f : Cache → Cache} {ret : Int}, (∀ c, SameLog c (f c)) →
        Keeps SameLog (modify f >>= fun _ => pure ret : C Int) := fun hf => .bind (.modify hf) fun _ => .pure
    refine .ite .pure (.ite .pure (Keeps.get.bind fun c => ?_))
    exact .ite (hmodify fun _ => rfl) (.ite (hmodify fun _ => rfl) .pure)

def SparesAhead (P : Release → Prop) (io : Env) (m index last : Nat) : Nat → Nat → Cache → Prop
  | 0, _, _ => True
  | n + 1, i, c => i ≤ last - index → SparesGet P io c m (index + i) true ∧
      match pagecacheGetPage io m (index + i) true c with
      | .ok (.ok (some _)) c' => SparesAhead P io m index last n (i + 1) c'
      | _ => True

theorem readAhead_logs (m index last n i : Nat) (c : Cache) :
    wp (readAhead io m index last n i) (fun _ => LogsIff P c (SparesAhead P io m index last n i c))
      (fun _ _ => False) c := by
  induction n generalizing i c with
  | zero => exact SameLog.logsIff rfl
  | succ n ih =>
    unfold readAhead SparesAhead
    split <;> rename_i hi
    · obtain ⟨a, c₁, hget, hlogs⟩ := exists_ok_of_wp (pagecacheGetPage_logs m (index + i) true)
      refine wp_of_bind_ok hget ?_
      rw [hget]
      simp only [hi, forall_const]
      match a with
      | .ok (some id) =>
        refine wp_bind.2 (wp_post (fun _ c₂ h₂ => ?_) (ih (i + 1) c₁))
        exact hlogs.trans h₂
      | .ok none => exact hlogs.stopped
      | .error e => exact hlogs.stopped
    · exact (SameLog.logsIff rfl).congr ⟨fun _ h => absurd h hi, fun _ => trivial⟩

def ReadsAhead (io : Env) (c : Cache) (m id : Nat) (allowReadahead : Bool) : Prop :=
  (∃ page, c.page id = some page ∧ page.uptodate = false) ∧ (io.mapping m).readpage = true ∧
    (allowReadahead && (io.mapping m).readpages) = true

def SparesRead (P : Release → Prop) (io : Env) (c : Cache) (m index : Nat) (allowReadahead : Bool) : Prop :=
  (io.mapping m).size ≠ 0 → index ≤ ((io.mapping m).size - 1) / pageSize →
    SparesGet P io c m index true ∧
      match pagecacheGetPage io m index true c with
      | .ok (.ok (some id)) c' => ReadsAhead io c' m id allowReadahead →
          SparesAhead P io m index (((io.mapping m).size - 1) / pageSize) (raMaxPages - 1) 1 c'
      | _ => True

theorem pagecacheReadPage_logs (m index : Nat) (allowReadahead : Bool) :
    wp (pagecacheReadPage io m index allowReadahead)
      (fun _ => LogsIff P c (SparesRead P io c m index allowReadahead))
      (fun _ => LogsIff P c (SparesRead P io c m index allowReadahead)) c := by
  unfold pagecacheReadPage SparesRead
  dsimp only
  split <;> rename_i hrange
  · refine (SameLog.logsIff rfl).congr ⟨fun _ hsize hle => ?_, fun _ => trivial⟩
    exact hrange.elim (fun h => absurd h hsize) (fun h => absurd hle (Nat.not_le.2 h))
  · obtain ⟨hsize, hle⟩ := not_or.1 hrange
    have hle' := Nat.le_of_not_lt hle
    simp only [ne_eq, hsize, not_false_eq_true, hle', forall_const]
    obtain ⟨a, c₁, hget, hlogs⟩ := exists_ok_of_wp (pagecacheGetPage_logs m index true)
    refine wp_of_bind_ok hget ?_
    rw [hget]
    match a with
    | .error e => exact hlogs.stopped
    | .ok none => exact hlogs.stopped
    | .ok (some id) =>
      refine wp_bind.2 (wp_get.2 ?_)
      -- no page is read ahead: nothing more leaves the cache
      have hnone : ¬ ReadsAhead io c₁ m id allowReadahead → LogsIff P c (SparesGet P io c m index true ∧
          (ReadsAhead io c₁ m id allowReadahead → SparesAhead P io m index
            (((io.mapping m).size - 1) / pageSize) (raMaxPages - 1) 1 c₁)) c₁ := fun hno =>
        hlogs.congr ⟨fun h => ⟨h, fun h' => absurd h' hno⟩, fun h => h.1⟩
      cases hpage : c₁.page id with
      | none => exact hnone fun h => by simp [ReadsAhead, hpage] at h
      | some page =>
        dsimp only
        split <;> rename_i hup
        · exact hnone fun h => by simp [ReadsAhead, hpage, hup] at h
        · split <;> rename_i hread
          · have hsame := hnone fun h => by simp [ReadsAhead, hread] at h
            exact wp_bind.2 (hsame.keeps (pagecachePutPage_sameLog id))
          · have hrest : ∀ (p : Prop) (more : List Nat) (c₂ : Cache), LogsIff P c p c₂ → wp (do
                  let ret ← fillPages io id more
                  putPages more
                  if ret < 0 then
                    pagecachePutPage id
                    return .error ret
                  else return .ok id : C (Except Int Nat)) (fun _ => LogsIff P c p)
                  (fun _ => LogsIff P c p) c₂ := by
              intro p more c₂ h
              refine h.keeps ((fillPages_sameLog id more).bind fun ret => (putPages_sameLog more).bind fun _ => ?_)
              exact .ite ((pagecachePutPage_sameLog id).bind fun _ => .pure) .pure
            split <;> rename_i hahead
            · have hreads : ReadsAhead io c₁ m id allowReadahead :=
                ⟨⟨page, hpage, Bool.not_eq_true _ ▸ hup⟩, Bool.not_eq_false _ ▸ hread, hahead⟩
              refine wp_call (readAhead_logs (P := P) ..) (fun _ _ h => h.elim) fun more c₂ h₂ => ?_
              exact hrest _ more c₂ ((hlogs.trans h₂).congr (and_congr_right fun _ =>
                ⟨fun h _ => h, fun h => h hreads⟩))
            · exact wp_bind.2 (wp_pure.2 (hrest _ [] c₁ (hnone fun h => hahead h.2.2)))

/-! ## Writing back and changing pages -/

theorem pagecacheWritePage_sameLog (id : Nat) : Keeps SameLog (pagecacheWritePage io id) := by
  refine Keeps.get.bind fun c => ?_
  cases c.page id with
  | none => exact .pure
  | some page =>
    dsimp only
    cases page.sync io with
    | none => exact .throw
    | some r => exact .bind (.modify fun _ => rfl) fun _ => .pure

theorem syncLoop_sameLog (m : Nat) (pages : List Page) : Keeps SameLog (syncLoop io m pages) := by
  induction pages with
  | nil => exact .pure
  | cons page rest ih =>
    exact .ite ((pagecacheWritePage_sameLog page.id).bind fun ret => .ite .pure ih) ih

theorem modifyPage_sameLog (id : Nat) (f : Page → Page) : Keeps SameLog (modifyPage id f) := by
  refine .modify fun c => ?_
  cases c.page id <;> rfl

theorem pagecacheMarkDirtyRange_sameLog (id offset length blockSize : Nat) :
    Keeps SameLog (pagecacheMarkDirtyRange id offset length blockSize) :=
  .ite .pure (.ite .pure ((modifyPage_sameLog id _).bind fun _ => .pure))

theorem invalidateLoop_logs [Careful P] (m : Nat) (pages : List Page) (c : Cache) :
    wp (invalidateLoop io m pages)
      (fun _ => LogsIff P c (∀ page ∈ pages, page.mapping = m → P (page.release io)))
      (fun _ => LogsIff P c (∀ page ∈ pages, page.mapping = m → P (page.release io))) c := by
  induction pages generalizing c with
  | nil => exact ⟨[], rfl, by simp⟩
  | cons page rest ih =>
    unfold invalidateLoop
    split <;> rename_i hm
    · refine wp_call (lruCacheReleaseNode_logs (P := P) page) (fun _ c₁ h₁ => ?_) fun _ c₁ h₁ => ?_
      · -- the release has stopped at a page that should not have been taken out
        exact h₁.1.congr ⟨fun h => absurd h h₁.2, fun h => h page mem_cons_self hm⟩
      have hall : ∀ c₂, LogsIff P c₁ (∀ page ∈ rest, page.mapping = m → P (page.release io)) c₂ →
          LogsIff P c (∀ q ∈ page :: rest, q.mapping = m → P (q.release io)) c₂ := fun c₂ h₂ =>
        (h₁.trans h₂).congr (by simp only [forall_mem_cons, hm, forall_const])
      exact wp_mono (fun _ => hall) (fun _ => hall) (ih c₁)
    · have hall : ∀ c₂, LogsIff P c (∀ page ∈ rest, page.mapping = m → P (page.release io)) c₂ →
          LogsIff P c (∀ q ∈ page :: rest, q.mapping = m → P (q.release io)) c₂ := fun c₂ h₂ =>
        h₂.congr (by simp only [forall_mem_cons, hm, false_imp_iff, true_and])
      exact wp_mono (fun _ => hall) (fun _ => hall) (ih c)

/-! ## Runs -/

def Spares (P : Release → Prop) (io : Env) (c : Cache) : Op → Prop
  | .get m index creat => SparesGet P io c m index creat
  | .read m index allowReadahead => SparesRead P io c m index allowReadahead
  | .reclaim n => ∀ page ∈ c.leastRecent io n, P (page.release io)
  | .invalidate m | .evict m => ∀ page ∈ c.pages, page.mapping = m → P (page.release io)
  | _ => True

theorem Op.run_logs [Careful P] (op : Op) :
    wp (op.run io) (fun _ => LogsIff P c (Spares P io c op)) (fun _ => LogsIff P c (Spares P io c op)) c := by
  have hsame : ∀ x : C Unit, Keeps SameLog x →
      wp x (fun _ => LogsIff P c True) (fun _ => LogsIff P c True) c := fun x hx =>
    (SameLog.logsIff rfl).keeps hx
  cases op with
  | get m index creat =>
    exact wp_call (pagecacheGetPage_logs m index creat) (fun _ _ h => h.elim) fun _ _ h => h
  | put id => exact hsame _ (pagecachePutPage_sameLog id)
  | read m index allowReadahead => exact wp_bind.2 (pagecacheReadPage_logs m index allowReadahead)
  | write id => exact hsame _ ((pagecacheWritePage_sameLog id).bind fun _ => .pure)
  | setDirty id => exact hsame _ (modifyPage_sameLog id _)
  | markDirtyRange id offset length blockSize =>
    exact hsame _ ((pagecacheMarkDirtyRange_sameLog id offset length blockSize).bind fun _ => .pure)
  | sync m => exact hsame _ (Keeps.bind (Keeps.get.bind fun c => syncLoop_sameLog m c.pages) fun _ => .pure)
  | invalidate m => exact invalidateLoop_logs m c.pages c
  | reclaim n =>
    exact wp_call (pagecacheReclaimPages_logs P n c) (fun _ _ h => h.elim) fun _ _ h => h
  | evict m => exact invalidateLoop_logs m c.pages c

def AllSpare (P : Release → Prop) : List (Env × Op) → Cache → Prop
  | [], _ => True
  | (io, op) :: rest, c => Spares P io c op ∧
      match op.run io c with
      | .ok _ c' => AllSpare P rest c'
      | .error _ _ => True

theorem runOps_logs [Careful P] (ops : List (Env × Op)) (c : Cache) :
    wp (runOps ops) (fun _ => LogsIff P c (AllSpare P ops c)) (fun _ => LogsIff P c (AllSpare P ops c)) c := by
  induction ops generalizing c with
  | nil => exact SameLog.logsIff rfl
  | cons step rest ih =>
    obtain ⟨io, op⟩ := step
    have hop : wp (op.run io) (fun _ => LogsIff P c (Spares P io c op))
      (fun _ => LogsIff P c (Spares P io c op)) c := Op.run_logs op
    unfold runOps AllSpare
    cases hrun : op.run io c with
    | ok a c₁ =>
      refine wp_of_bind_ok hrun ?_
      have h₁ := wp_ok hop hrun
      exact wp_mono (fun _ _ => h₁.trans) (fun _ _ => h₁.trans) (ih c₁)
    | error e c₁ =>
      have h₁ := wp_error hop hrun
      have hstop : (op.run io >>= fun _ => runOps rest) c = .error e c₁ := by
        show EStateM.bind _ _ _ = _
        rw [EStateM.bind, hrun]
      unfold wp
      rw [hstop]
      exact h₁.stopped

def Released (P : Release → Prop) (c c' : Cache) : Prop := ∃ new, c'.log = new ++ c.log ∧ ∀ r ∈ new, P r

theorem LogsIff.released (h : LogsIff P c p c') : Released P c c' ↔ p := by
  obtain ⟨new, hlog, hiff⟩ := h
  constructor
  · rintro ⟨new', hlog', hnew⟩
    rw [append_cancel_right (hlog'.symm.trans hlog)] at hnew
    exact hiff.1 hnew
  · intro hp
    exact ⟨new, hlog, hiff.2 hp⟩

/-- **Pages that leave the cache.** In a run on any cache, the pages that leave were not in use and not
dirty just if each operation has only such pages to take out. Of pages that were dirty and are written
back after they were taken out, the data is on the disk just if `writepage` returns 0 for each. -/
theorem released_iff (ops : List (Env × Op)) :
    Keeps (fun c c' => (Released Clean c c' ↔ AllSpare Clean ops c) ∧
      (Released Kept c c' ↔ AllSpare Kept ops c)) (runOps ops) := by
  intro c
  have hboth := wp_and (runOps_logs (P := Clean) ops c) (runOps_logs (P := Kept) ops c)
  exact wp_mono (fun _ _ h => ⟨h.1.released, h.2.released⟩)
    (fun _ _ h => ⟨h.1.released, h.2.released⟩) hboth

/-- A file of one page, of which the writes fail -/
def badDisk : Env where
  mapping _ := { size := 4096, readpage := true, readpages := true, writepage := true }
  alloc _ := true
  writepage _ := -eio
  readpage _ := 0
  readpages := 0

/-- A page is freed while it is in use. A page that is dirty is taken out and freed, although it could
not be written back. -/
theorem invalidate_frees_used :
    (∃ c', runOps [(badDisk, .read 0 0 true), (badDisk, .invalidate 0)] Cache.empty = .ok () c' ∧
      c'.log.map (fun r => r.page.refcount) = [1]) ∧
    (∃ c', runOps [(badDisk, .read 0 0 true), (badDisk, .setDirty 0), (badDisk, .write 0), (badDisk, .put 0),
        (badDisk, .reclaim 1)] Cache.empty = .ok () c' ∧
      c'.pages = [] ∧ c'.log.map (fun r => (r.page.dirty, r.written)) = [(true, false)]) ∧
    ∃ c', runOps [(badDisk, .read 0 0 true), (badDisk, .setDirty 0), (badDisk, .write 0), (badDisk, .put 0),
        (badDisk, .evict 0)] Cache.empty = .ok () c' ∧
      c'.pages = [] ∧ c'.log.map (fun r => (r.page.dirty, r.written)) = [(true, false)] :=
  ⟨⟨_, rfl, rfl⟩, ⟨_, rfl, rfl, rfl⟩, ⟨_, rfl, rfl, rfl⟩⟩

end ZzzOs.Fs.Pagecache
