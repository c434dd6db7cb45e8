import ZzzOs.Fs.Block.Model

/-!
# Ranges of bytes

What `__blkdev_read_raw` and `__blkdev_write_raw` do to the bytes of the disk and of the buffer. Each
piece of a request moves its own range (`Moved`), and ranges that follow each other are one range.

A logical block has to be made of whole sectors: the driver gets its position as a number of sectors.
-/

namespace ZzzOs.Fs.Block

open Lib List Nat

variable {D : Device} {io : Env} {s s' s'' : Machine} {p : Bdev} {bio bio' : Bio} {op : Op}
  {buf pos len a l x k n done chunk sector : Nat} {e : Stop} {vs : List Vec} {v : Vec}
  {d b b' : Bytes} {arrived : Nat → Bool} {F G H : Prop} {f : B Unit}

/-! ## Outcomes -/

/-- Nothing fails for reasons of its own. -/
structure Env.Calm (io : Env) : Prop where
  alloc : ∀ n, io.alloc n = true
  pages : ∀ n, io.pages n = true
  answer : ∀ n, io.answer n = .done

def Upto (s s' : Machine) : Prop := ∃ a r, s' = { s with allocs := a, requests := r }

theorem Upto.refl (s : Machine) : Upto s s := ⟨s.allocs, s.requests, rfl⟩

theorem Upto.trans (h : Upto s s') (h' : Upto s' s'') : Upto s s'' := by
  obtain ⟨a, r, rfl⟩ := h
  obtain ⟨a', r', rfl⟩ := h'
  exact ⟨a', r', rfl⟩

/-- A call ends early, without anything done; nothing of this happens in a calm environment. -/
structure Early (io : Env) (s : Machine) (e : Stop) (s' : Machine) : Prop where
  ret : e ≠ .assert
  same : Upto s s'
  cause : ¬ io.Calm

theorem Early.after (h : Early io s' e s'') (hupto : Upto s s') : Early io s e s'' :=
  ⟨h.ret, hupto.trans h.same, h.cause⟩

theorem require_spec : wp (require io) (fun _ s' => Upto s s') (Early io s) s := by
  refine wp_bind.2 ?_
  show wp (if io.alloc s.allocs then _ else _) _ _ _
  cases halloc : io.alloc s.allocs with
  | true => exact ⟨_, _, rfl⟩
  | false =>
    refine ⟨nofun, ⟨_, _, rfl⟩, fun hcalm => ?_⟩
    rw [hcalm.alloc] at halloc
    cases halloc

/-! ## The data of a request -/

/-- The vectors are the memory from an address on. -/
inductive Tiles : List Vec → Nat → Nat → Prop
  | nil {a : Nat} : Tiles [] a 0
  | cons {n off k l : Nat} {vs : List Vec} : Tiles vs (n * pageSize + off + k) l →
      Tiles ({ page := .kernel n, offset := off, len := k } :: vs) (n * pageSize + off) (k + l)

theorem Tiles.size (h : Tiles vs a l) : (vs.map Vec.len).sum = l := by
  induction h with
  | nil => rfl
  | cons _ ih => rw [map_cons, sum_cons, ih]

theorem Tiles.gather (h : Tiles vs a l) (hx : x < l) : s.gather vs x = s.mem (a + x) := by
  induction h generalizing x with
  | nil => exact absurd hx (not_lt_zero _)
  | @cons n off k l vs _ ih =>
    unfold Machine.gather
    by_cases hk : x < k
    · rw [if_pos hk]
      rfl
    · rw [if_neg hk]
      have haddr : n * pageSize + off + k + (x - k) = n * pageSize + off + x := by omega
      show s.gather vs (x - k) = _
      rw [ih (by omega), haddr]

theorem write_zero (m b : Bytes) (a : Nat) : m.write a 0 b = m :=
  funext fun _ => Bytes.write_out (by omega)

theorem Tiles.scatter (h : Tiles vs a l) (s : Machine) (pos : Nat) :
    s.scatter pos vs = { s with mem := s.mem.write a l (s.data.slice pos l) } := by
  induction h generalizing s pos with
  | nil =>
    rw [write_zero]
    rfl
  | @cons n off k l vs _ ih =>
    unfold Machine.scatter
    rw [ih, ← Bytes.write_write_slice]
    rfl

/-! ## One request -/

structure Bio.Ready (D : Device) (bio : Bio) : Prop where
  vecs : bio.vecs ≠ [] ∧ bio.vecs.length ≤ bio.maxVecs
  valid : ∀ v ∈ bio.vecs, v.Valid
  size : bio.size ≠ 0 ∧ bio.size % D.blockSize = 0 ∧ bio.size % sectorSize = 0
  aligned : bio.sector.toNat * sectorSize % 2 ^ 64 % D.blockSize = 0

def Bio.start (p : Bdev) (bio : Bio) : Nat := (p.startSect + bio.sector).toNat

structure Accepts (D : Device) (p : Bdev) (bio : Bio) : Prop where
  queue : bio.vecs.length + 2 ≤ D.vqNum
  disk : bio.start p + bio.size / sectorSize ≤ D.capacity

theorem scatter_rest (vs : List Vec) (s : Machine) (pos : Nat) :
    (s.scatter pos vs).log = s.log ∧ (s.scatter pos vs).parts = s.parts := by
  induction vs generalizing s pos with
  | nil => exact ⟨rfl, rfl⟩
  | cons v vs ih =>
    unfold Machine.scatter
    rw [(ih ..).1, (ih ..).2]
    unfold Machine.store
    cases v.page <;> exact ⟨rfl, rfl⟩

theorem transfer_rest (s : Machine) (bio : Bio) (sector : Nat) :
    (s.transfer bio sector).log = s.log ∧ (s.transfer bio sector).parts = s.parts := by
  unfold Machine.transfer
  cases bio.op with
  | read => exact scatter_rest ..
  | write => exact ⟨rfl, rfl⟩

theorem scatter_counters (vs : List Vec) (s : Machine) (pos a r : Nat) :
    ({ s with allocs := a, requests := r } : Machine).scatter pos vs =
      { s.scatter pos vs with allocs := a, requests := r } := by
  induction vs generalizing s pos with
  | nil => rfl
  | cons v vs ih =>
    unfold Machine.scatter
    rw [← ih]
    unfold Machine.store
    cases v.page <;> rfl

theorem gather_counters (vs : List Vec) (s : Machine) (a r : Nat) :
    ({ s with allocs := a, requests := r } : Machine).gather vs = s.gather vs := by
  induction vs with
  | nil => rfl
  | cons v vs ih =>
    unfold Machine.gather
    rw [ih]
    rfl

theorem transfer_counters (s : Machine) (bio : Bio) (sector a r : Nat) :
    ({ s with allocs := a, requests := r } : Machine).transfer bio sector =
      { s.transfer bio sector with allocs := a, requests := r } := by
  unfold Machine.transfer
  cases bio.op with
  | read => exact scatter_counters ..
  | write =>
    rw [gather_counters]

/-- The state after a request was carried out -/
def Machine.after (s : Machine) (p : Bdev) (bio : Bio) : Machine :=
  { s.transfer bio (bio.start p) with log := (bio.start p, bio.size / sectorSize) :: s.log }

/-- The disk after a request has failed -/
def Harmed (s : Machine) (p : Bdev) (bio : Bio) (s' : Machine) : Prop :=
  s'.data = s.data ∨ bio.op = .write ∧ ∃ arrived,
    s'.data = torn s.data (bio.start p * sectorSize) bio.size arrived (s.gather bio.vecs)

theorem Harmed.of_read (h : Harmed s p bio s') (hop : bio.op = .read) : s'.data = s.data :=
  h.resolve_right fun hw => nomatch hop.symm.trans hw.1

/-- How a request can fail -/
structure Fails (D : Device) (io : Env) (p : Bdev) (bio : Bio) (s : Machine) (e : Stop) (s' : Machine) :
    Prop where
  ret : e ≠ .assert
  disk : Harmed s p bio s'
  cause : ¬ (io.Calm ∧ Accepts D p bio)

theorem device_spec (hupto : Upto s s') :
    wp (device io bio (bio.start p)) (fun _ s'' => Upto (s.after p bio) s'')
      (fun e s'' => e ≠ .assert ∧ Harmed s p bio s'' ∧ ¬ io.Calm) s' := by
  obtain ⟨a, r, rfl⟩ := hupto
  unfold wp device
  cases hanswer : io.answer r with
  | done =>
    refine ⟨a, r + 1, ?_⟩
    dsimp only
    rw [transfer_counters, (transfer_rest ..).1]
    rfl
  | refused ret =>
    refine ⟨nofun, .inl rfl, fun hcalm => ?_⟩
    rw [hcalm.answer] at hanswer
    cases hanswer
  | failed unsupp arrived =>
    refine ⟨nofun, ?_, fun hcalm => ?_⟩
    · unfold Machine.transferTorn
      cases hop : bio.op with
      | read => exact .inl rfl
      | write =>
        refine .inr ⟨hop, arrived, ?_⟩
        dsimp only
        rw [gather_counters]
    · rw [hcalm.answer] at hanswer
      cases hanswer

theorem submitBioWait_spec (hready : bio.Ready D) (hbs : D.blockSize ≠ 0) :
    wp (submitBioWait D io p bio) (fun _ s' => Accepts D p bio ∧ Upto (s.after p bio) s')
      (Fails D io p bio s) s := by
  obtain ⟨⟨hvecs, hmax⟩, hvalid, ⟨hsize, hblocks, hsectors⟩, haligned⟩ := hready
  have hfits : ∀ v ∈ bio.vecs, v.len ≠ 0 → v.offset + v.len ≤ pageSize := by
    intro v hv _
    obtain ⟨-, hoff, hlen⟩ := hvalid v hv
    omega
  unfold submitBioWait blkdevValidateBio
  rw [if_neg hbs, if_neg (by rintro (h | h); exacts [hvecs h, not_lt.2 hmax h]),
    if_neg (by rintro (h | h); exacts [hsize h, h hblocks]), if_neg (not_not.2 haligned), if_pos hfits]
  refine wp_bind.2 (wp_pure.2 ?_)
  unfold virtioBlkSubmitBio
  rw [if_neg (by rintro (h | h); exacts [hsize h, h hsectors])]
  by_cases hqueue : D.vqNum < bio.vecs.length + 2
  · rw [if_pos hqueue]
    exact ⟨nofun, .inl rfl, fun h => absurd h.2.queue (not_le.2 hqueue)⟩
  · rw [if_neg hqueue]
    have hpos : 0 < bio.size / sectorSize := by
      unfold sectorSize at hsectors ⊢
      omega
    by_cases hdisk : D.capacity ≤ (p.startSect + bio.sector).toNat ∨
        D.capacity - (p.startSect + bio.sector).toNat < bio.size / sectorSize
    · rw [if_pos hdisk]
      refine ⟨nofun, .inl rfl, fun h => ?_⟩
      have hle : (p.startSect + bio.sector).toNat + bio.size / sectorSize ≤ D.capacity := h.2.disk
      omega
    · rw [if_neg hdisk]
      have haccepts : Accepts D p bio := by
        refine ⟨Nat.le_of_not_lt hqueue, ?_⟩
        show (p.startSect + bio.sector).toNat + _ ≤ _
        omega
      refine wp_call require_spec (fun e s₁ h₁ => ?_) fun _ s₁ h₁ => ?_
      · obtain ⟨a, r, rfl⟩ := h₁.same
        exact ⟨h₁.ret, .inl rfl, fun h => h₁.cause h.1⟩
      rw [if_pos hvalid]
      refine wp_mono (fun _ s₂ h₂ => ⟨haccepts, h₂⟩) (fun e s₂ h₂ => ?_) (device_spec h₁)
      exact ⟨h₂.1, h₂.2.1, fun h => h₂.2.2 h.1⟩

/-! ## Pieces of a request -/

/-- A range of bytes was moved. -/
structure Moved (op : Op) (buf pos len : Nat) (s s' : Machine) : Prop where
  data : s'.data = if op = .read then s.data else s.data.write pos len (s.mem.slice buf len)
  mem : s'.mem = if op = .read then s.mem.write buf len (s.data.slice pos len) else s.mem

structure Spared (op : Op) (pos len : Nat) (s s' : Machine) : Prop where
  outside : ∀ x, x < pos ∨ pos + len ≤ x → s'.data x = s.data x
  read : op = .read → s'.data = s.data

def Covers (log : List (Nat × Nat)) (pos len : Nat) : Prop :=
  ∀ lo hi, (∀ e ∈ log, lo ≤ e.1 ∧ e.1 + e.2 ≤ hi) ↔ lo * sectorSize ≤ pos ∧ pos + len ≤ hi * sectorSize

structure PieceDone (D : Device) (op : Op) (buf pos len : Nat) (fits : Prop) (s s' : Machine) : Prop where
  moved : Moved op buf pos len s s'
  disk : pos + len ≤ D.capacity * sectorSize
  fits : fits
  log : D.blockSize = sectorSize → ∃ new, s'.log = new ++ s.log ∧ Covers new pos len

/-- A piece of a request has failed. -/
structure PieceFails (D : Device) (io : Env) (op : Op) (pos len : Nat) (fits : Prop) (s : Machine)
    (e : Stop) (s' : Machine) : Prop where
  ret : e ≠ .assert
  spared : Spared op pos len s s'
  cause : D.blockSize = sectorSize → io.Calm → pos + len ≤ D.capacity * sectorSize → ¬ fits

/-- A program does a piece of a request that began in `s`, or fails in it. -/
def Piece (D : Device) (io : Env) (op : Op) (buf pos len : Nat) (fits : Prop) (s : Machine) (f : B Unit)
    (s' : Machine) : Prop :=
  wp f (fun _ => PieceDone D op buf pos len fits s) (PieceFails D io op pos len fits s) s'

theorem Moved.trans (h : Moved op buf pos k s s')
    (h' : Moved op (buf + k) (pos + k) l s' s'') : Moved op buf pos (k + l) s s'' := by
  obtain ⟨hdata, hmem⟩ := h
  obtain ⟨hdata', hmem'⟩ := h'
  cases op with
  | read =>
    simp only [if_true] at hdata hmem hdata' hmem'
    refine ⟨hdata'.trans hdata, ?_⟩
    rw [hmem', hdata, hmem, Bytes.write_write_slice, if_pos rfl]
  | write =>
    simp only [reduceCtorEq, if_false] at hdata hmem hdata' hmem'
    refine ⟨?_, hmem'.trans hmem⟩
    rw [hdata', hmem, hdata, Bytes.write_write_slice, if_neg nofun]

theorem Moved.spared (h : Moved op buf pos k s s') : Spared op pos k s s' := by
  refine ⟨fun x hx => ?_, fun hop => ?_⟩
  · rw [h.data]
    split
    · rfl
    · exact Bytes.write_out hx
  · rw [h.data, if_pos hop]

theorem Spared.of_eq (h : s'.data = s.data) : Spared op pos len s s' :=
  ⟨fun _ _ => by rw [h], fun _ => h⟩

theorem Spared.mono (h : Spared op pos k s s') (hle : k ≤ l) : Spared op pos l s s' :=
  ⟨fun x hx => h.outside x (by omega), h.read⟩

theorem Spared.after (h : Spared op pos k s s')
    (h' : Spared op (pos + k) l s' s'') : Spared op pos (k + l) s s'' :=
  ⟨fun x hx => (h'.outside x (by omega)).trans (h.outside x (by omega)),
    fun hop => (h'.read hop).trans (h.read hop)⟩

theorem Covers.append {log log' : List (Nat × Nat)} (h : Covers log pos k)
    (h' : Covers log' (pos + k) l) : Covers (log' ++ log) pos (k + l) := by
  intro lo hi
  have hall : (∀ e ∈ log' ++ log, lo ≤ e.1 ∧ e.1 + e.2 ≤ hi) ↔
      (∀ e ∈ log', lo ≤ e.1 ∧ e.1 + e.2 ≤ hi) ∧ ∀ e ∈ log, lo ≤ e.1 ∧ e.1 + e.2 ≤ hi :=
    forall_mem_append
  rw [hall, h lo hi, h' lo hi]
  omega

theorem covers_sectors (hlo : sector * sectorSize ≤ k) (hlo' : k < (sector + 1) * sectorSize)
    (hhi : k + l ≤ (sector + n) * sectorSize) (hhi' : (sector + n) * sectorSize < k + l + sectorSize) :
    Covers [(sector, n)] k l := by
  intro lo hi
  unfold sectorSize at *
  simp only [mem_singleton, forall_eq]
  omega

/-! ## Partial blocks -/

structure Device.Blocks (D : Device) : Prop where
  sectors : sectorSize ∣ D.blockSize
  page : D.blockSize ∣ pageSize

theorem Device.Blocks.blockSize_pos (h : D.Blocks) : 0 < D.blockSize := pos_of_dvd_of_pos h.page (by decide)

theorem Device.Blocks.blockSize_le (h : D.Blocks) : D.blockSize ≤ pageSize := le_of_dvd (by decide) h.page

/-- The `bio` of a partial block -/
def blockBio (D : Device) (op : Op) (pos : Nat) : Bio where
  op := op
  sector := BitVec.ofNat 64 ((pos - pos % D.blockSize) / sectorSize)
  maxVecs := 1
  vecs := [{ page := .bounce, offset := 0, len := D.blockSize }]

theorem blockBio_size : (blockBio D op pos).size = D.blockSize := add_zero _

/-- The whole disk begins at the sector 0. -/
theorem start_whole (D : Device) (bio : Bio) : bio.start D.whole = bio.sector.toNat :=
  congrArg BitVec.toNat (BitVec.zero_add _)

theorem toNat_sector (hpos : pos < 2 ^ 64) : (BitVec.ofNat 64 (pos / sectorSize)).toNat = pos / sectorSize :=
  mod_eq_of_lt (lt_of_le_of_lt (div_le_self _ _) hpos)

theorem block_sector (h : D.Blocks) (op : Op) (hpos : pos < 2 ^ 64) :
    (blockBio D op pos).start D.whole * sectorSize = pos - pos % D.blockSize := by
  have hblock : sectorSize ∣ pos - pos % D.blockSize :=
    dvd_trans h.sectors (dvd_sub_mod pos)
  rw [start_whole, blockBio, toNat_sector (by omega), Nat.div_mul_cancel hblock]

theorem blockBio_ready (h : D.Blocks) (hpos : pos < 2 ^ 64) : (blockBio D op pos).Ready D := by
  have hpage := h.blockSize_le
  have hbs := h.blockSize_pos
  have hsector := block_sector h op hpos
  refine ⟨⟨nofun, le_refl _⟩, ?_, ⟨?_, ?_, ?_⟩, ?_⟩
  · intro v hv
    obtain rfl := mem_singleton.1 hv
    exact ⟨ne_of_gt hbs, show 0 < pageSize by decide, hpage⟩
  · exact ne_of_gt hbs
  · rw [blockBio_size, mod_self]
  · exact mod_eq_zero_of_dvd h.sectors
  · rw [← start_whole D, hsector, mod_eq_of_lt (lt_of_le_of_lt (sub_le _ _) hpos)]
    exact mod_eq_zero_of_dvd (dvd_sub_mod pos)

theorem bioAddPage_eq (hv : v.Valid) (hcount : bio.vecs.length < bio.maxVecs)
    (hsize : bio.size + v.len < 2 ^ 32) :
    bioAddPage bio v s = .ok { bio with vecs := bio.vecs ++ [v] } s := by
  obtain ⟨hlen, hoff, hfits⟩ := hv
  unfold bioAddPage
  rw [if_neg hlen, if_neg (by omega), if_neg (not_le.2 hcount), if_neg (by omega)]
  rfl

/-- What a partial block needs -/
def PartialFits (D : Device) : Prop := 3 ≤ D.vqNum

theorem Accepts.block (h : D.Blocks) (hpos : pos < 2 ^ 64) (haccepts : Accepts D D.whole (blockBio D op pos)) :
    pos - pos % D.blockSize + D.blockSize ≤ D.capacity * sectorSize := by
  have hdisk := mul_le_mul_right sectorSize haccepts.disk
  rw [Nat.add_mul, block_sector h op hpos, blockBio_size, Nat.div_mul_cancel h.sectors] at hdisk
  exact hdisk

theorem accepts_block (h : D.Blocks) (hpos : pos < 2 ^ 64) (hbs : D.blockSize = sectorSize)
    (hlen : 0 < len) (hdisk : pos + len ≤ D.capacity * sectorSize) (hfits : PartialFits D) :
    Accepts D D.whole (blockBio D op pos) := by
  refine ⟨hfits, ?_⟩
  have hsector := block_sector h op hpos
  rw [blockBio_size, hbs, Nat.div_self (by decide)]
  unfold sectorSize at *
  omega

theorem partialBio_spec (h : D.Blocks) (hlen : pos % D.blockSize + len ≤ D.blockSize) :
    wp (partialBio D io len pos) (fun bio s' => bio = blockBio D .read pos ∧ Upto s s') (Early io s) s := by
  have hpage := h.blockSize_le
  have hbs := h.blockSize_pos
  unfold partialBio
  rw [if_neg (by omega), if_neg (by omega)]
  refine wp_seq require_spec fun _ s₁ h₁ => ?_
  refine wp_bind.2 (wp_call require_spec (fun _ _ he => he.after h₁) fun _ s₂ h₂ => ?_)
  refine wp_call require_spec (fun _ _ he => he.after (h₁.trans h₂)) fun _ s₃ h₃ => wp_pure.2 ?_
  have hvalid : Vec.Valid { page := .bounce, offset := 0, len := D.blockSize } :=
    ⟨ne_of_gt hbs, show 0 < pageSize by decide, hpage⟩
  have hsize : (0 : Nat) + D.blockSize < 2 ^ 32 := by
    unfold pageSize at hpage
    omega
  refine wp_of_ok (bioAddPage_eq hvalid Nat.one_pos hsize) ?_
  exact ⟨rfl, (h₁.trans h₂).trans h₃⟩

theorem gather_block (op : Op) (hx : x < D.blockSize) :
    s.gather (blockBio D op pos).vecs x = s.bounce x := by
  show (if x < D.blockSize then s.bounce (0 + x) else 0) = _
  rw [if_pos hx, zero_add]

theorem torn_congr (h : ∀ x < len, b x = b' x) :
    torn d pos len arrived b = torn d pos len arrived b' := by
  funext x
  unfold torn
  split
  · exact h _ (by omega)
  · rfl

theorem torn_outside (hx : x < pos ∨ pos + len ≤ x) :
    torn d pos len arrived b x = d x := if_neg (by omega)

/-- The bytes of the block around the range are written back as they were read. -/
theorem torn_modified (d r b : Bytes) (arrived : Nat → Bool) {bs off : Nat}
    (hx : x < pos + off ∨ pos + off + len ≤ x) :
    torn d pos bs arrived ((r.write 0 bs (d.slice pos bs)).write off len b) x = d x := by
  unfold torn
  split
  · rw [Bytes.write_out (by omega)]
    unfold Bytes.write Bytes.slice
    rw [if_pos (by omega), if_pos (by omega)]
    congr 1
    omega
  · rfl

section

variable (h : D.Blocks) (hpos : pos < 2 ^ 64)

include h hpos

theorem after_block_read : s.after D.whole (blockBio D .read pos) = { s with
      bounce := s.bounce.write 0 D.blockSize (s.data.slice (pos - pos % D.blockSize) D.blockSize)
      log := ((blockBio D .read pos).start D.whole, D.blockSize / sectorSize) :: s.log } := by
  unfold Machine.after
  rw [blockBio_size, ← block_sector h .read hpos]
  rfl

theorem after_block_write : s.after D.whole (blockBio D .write pos) = { s with
      data := s.data.write (pos - pos % D.blockSize) D.blockSize s.bounce
      log := ((blockBio D .write pos).start D.whole, D.blockSize / sectorSize) :: s.log } := by
  unfold Machine.after Machine.transfer
  rw [blockBio_size, ← block_sector h .write hpos]
  show ({ s with data := s.data.write _ D.blockSize _, log := _ } : Machine) = _
  rw [Bytes.write_congr fun x hx => gather_block .write hx]

theorem covers_block (op : Op) (hbs : D.blockSize = sectorSize) (hlen : 0 < len) (hle : pos % D.blockSize + len ≤ D.blockSize) :
    Covers [((blockBio D op pos).start D.whole, D.blockSize / sectorSize)] pos len := by
  have hsector := block_sector h op hpos
  generalize (blockBio D op pos).start D.whole = sector at hsector
  unfold sectorSize at *
  refine covers_sectors ?_ ?_ ?_ ?_ <;> unfold sectorSize <;> omega

section

variable (hlen : 0 < len) (hle : pos % D.blockSize + len ≤ D.blockSize)

include hlen hle

/-- The block is read into the bounce page first, and nothing was written if that fails. -/
theorem readBlock_rule {k : Bio → B Unit} (hk : ∀ a r, Accepts D D.whole (blockBio D .read pos) →
      Piece D io op buf pos len (PartialFits D) s (k (blockBio D .read pos)) { s with
          bounce := s.bounce.write 0 D.blockSize (s.data.slice (pos - pos % D.blockSize) D.blockSize)
          log := ((blockBio D .read pos).start D.whole, D.blockSize / sectorSize) :: s.log
          allocs := a
          requests := r }) :
    Piece D io op buf pos len (PartialFits D) s
      (partialBio D io len pos >>= fun bio => submitBioWait D io D.whole bio >>= fun _ => k bio) s := by
  have hfails : ∀ {e s₂}, e ≠ .assert → s₂.data = s.data →
      ¬ (io.Calm ∧ Accepts D D.whole (blockBio D .read pos)) →
      PieceFails D io op pos len (PartialFits D) s e s₂ := fun hret hsame hcause =>
    ⟨hret, .of_eq hsame,
      fun hbs hcalm hin hfits => hcause ⟨hcalm, accepts_block h hpos hbs hlen hin hfits⟩⟩
  refine wp_call (partialBio_spec h hle) (fun e s₁ h₁ => ?_) fun bio s₁ h₁ => ?_
  · obtain ⟨hret, ⟨a, r, rfl⟩, hcause⟩ := h₁
    exact hfails hret rfl fun hcalm => hcause hcalm.1
  obtain ⟨rfl, a, r, rfl⟩ := h₁
  refine wp_call (submitBioWait_spec (blockBio_ready h hpos) (ne_of_gt h.blockSize_pos))
    (fun e s₂ h₂ => hfails h₂.ret (h₂.disk.of_read rfl) h₂.cause) fun _ s₂ h₂ => ?_
  obtain ⟨haccepts, a', r', rfl⟩ := h₂
  rw [after_block_read h hpos]
  exact hk a' r' haccepts

theorem blkdevReadPartialBlock_spec :
    Piece D io .read buf pos len (PartialFits D) s (blkdevReadPartialBlock D io buf len pos) s := by
  unfold blkdevReadPartialBlock
  rw [if_neg (ne_of_gt hlen)]
  refine readBlock_rule h hpos hlen hle fun a r haccepts => ?_
  have hblock := haccepts.block h hpos
  have hmod := mod_le pos D.blockSize
  refine wp_modify.2 ⟨⟨rfl, ?_⟩, by omega, haccepts.queue, fun hbs => ?_⟩
  · refine Bytes.write_congr fun x hx => ?_
    dsimp only
    rw [Bytes.slice_of_lt hx, Bytes.slice_of_lt hx]
    unfold Bytes.write Bytes.slice
    rw [if_pos (by omega), if_pos (by omega)]
    congr 1
    omega
  · exact ⟨[_], rfl, covers_block h hpos .read hbs hlen hle⟩

theorem blkdevWritePartialBlock_spec :
    Piece D io .write buf pos len (PartialFits D) s (blkdevWritePartialBlock D io buf len pos) s := by
  have hmod := mod_le pos D.blockSize
  have hstart : pos - pos % D.blockSize + pos % D.blockSize = pos := Nat.sub_add_cancel hmod
  refine readBlock_rule h hpos hlen hle fun a r haccepts => ?_
  have hblock := haccepts.block h hpos
  refine wp_bind.2 (wp_modify.2 ?_)
  show wp (submitBioWait D io D.whole (blockBio D .write pos)) _ _ _
  refine wp_mono (fun _ s₃ h₃ => ?_) (fun e s₃ h₃ => ?_)
    (submitBioWait_spec (blockBio_ready h hpos) (ne_of_gt h.blockSize_pos))
  · obtain ⟨-, a'', r'', rfl⟩ := h₃
    rw [after_block_write h hpos]
    refine ⟨⟨?_, ?_⟩, by omega, haccepts.queue, fun hbs => ?_⟩
    · rw [if_neg nofun, Bytes.write_modified _ _ _ hle, hstart]
    · rw [if_neg nofun]
    · refine ⟨[_, _], rfl, ?_⟩
      have hcovers := covers_block h hpos .read hbs hlen hle
      intro lo hi
      have hboth := hcovers lo hi
      simp only [mem_singleton, forall_eq] at hboth
      simp only [forall_mem_cons, not_mem_nil, false_imp_iff, implies_true, and_true]
      have hsame : (blockBio D .write pos).start D.whole = (blockBio D .read pos).start D.whole := rfl
      rw [hsame, hboth, and_self]
  · obtain ⟨hret, hdisk, hcause⟩ := h₃
    refine ⟨hret, ⟨fun x hx => ?_, nofun⟩, fun hbs hcalm hin hfits =>
      hcause ⟨hcalm, accepts_block h hpos hbs hlen hin hfits⟩⟩
    rcases hdisk with hdisk | ⟨-, arrived, hdisk⟩
    · rw [hdisk]
    · rw [hdisk, block_sector h .write hpos, blockBio_size,
        torn_congr fun y hy => gather_block .write hy]
      exact torn_modified _ _ _ _ (by omega)

theorem blkdevPartialBlock_spec :
    Piece D io op buf pos len (PartialFits D) s (blkdevPartialBlock D io op buf len pos) s := by
  cases op with
  | read => exact blkdevReadPartialBlock_spec h hpos hlen hle
  | write => exact blkdevWritePartialBlock_spec h hpos hlen hle

end

end

/-! ## Whole blocks -/

/-- The vectors that a buffer takes -/
def vecsFor (buf len : Nat) : Nat := if len = 0 then 0 else (buf % pageSize + len + pageSize - 1) / pageSize

theorem vecsFor_step (buf : Nat) (hlen : len ≠ 0) : vecsFor buf len =
    1 + vecsFor (buf + min (pageSize - buf % pageSize) len) (len - min (pageSize - buf % pageSize) len) := by
  unfold vecsFor pageSize
  rw [if_neg hlen]
  by_cases hend : len ≤ 4096 - buf % 4096
  · rw [Nat.min_eq_right hend, Nat.sub_self, if_pos rfl]
    omega
  · rw [min_eq_left (by omega), if_neg (by omega)]
    omega

theorem bioAddPage_spec (hv : v.Valid) : wp (bioAddPage bio v)
      (fun bio' s' => s' = s ∧ bio' = { bio with vecs := bio.vecs ++ [v] } ∧ bio.vecs.length < bio.maxVecs)
      (fun e s' => s' = s ∧ e ≠ .assert ∧
        (bio.size + v.len < 2 ^ 32 → bio.maxVecs ≤ bio.vecs.length)) s := by
  by_cases hcount : bio.vecs.length < bio.maxVecs
  · by_cases hsize : bio.size + v.len < 2 ^ 32
    · exact wp_of_ok (bioAddPage_eq hv hcount hsize) ⟨rfl, rfl, hcount⟩
    · obtain ⟨hlen, hoff, hfits⟩ := hv
      unfold bioAddPage
      rw [if_neg hlen, if_neg (by omega), if_neg (not_le.2 hcount), if_pos (by omega)]
      exact ⟨rfl, nofun, fun h => absurd h hsize⟩
  · obtain ⟨hlen, hoff, hfits⟩ := hv
    unfold bioAddPage
    rw [if_neg hlen, if_neg (by omega), if_pos (Nat.le_of_not_lt hcount)]
    exact ⟨rfl, nofun, fun _ => Nat.le_of_not_lt hcount⟩

theorem size_append (bio : Bio) (vs : List Vec) :
    ({ bio with vecs := bio.vecs ++ vs } : Bio).size = bio.size + (vs.map Vec.len).sum := by
  unfold Bio.size
  rw [map_append, List.sum_append_nat]

def kernelVec (buf chunk : Nat) : Vec :=
  { page := .kernel (buf / pageSize), offset := buf % pageSize, len := chunk }

/-- A buffer was added to a request. -/
structure Mapped (bio bio' : Bio) (buf len : Nat) (vs : List Vec) : Prop where
  vecs : bio' = { bio with vecs := bio.vecs ++ vs }
  tiles : Tiles vs buf len
  valid : ∀ v ∈ vs, v.Valid
  length : vs.length = vecsFor buf len
  max : len ≠ 0 → bio.vecs.length + vs.length ≤ bio.maxVecs

theorem mapped_nil (bio : Bio) (buf : Nat) : Mapped bio bio buf 0 [] where
  vecs := by rw [append_nil]
  tiles := .nil
  valid := nofun
  length := rfl
  max h := absurd rfl h

theorem Mapped.cons (hvalid : (kernelVec buf chunk).Valid)
    (hcount : bio.vecs.length < bio.maxVecs) (hle : chunk ≤ len)
    (hstep : vecsFor buf len = 1 + vecsFor (buf + chunk) (len - chunk))
    (h : Mapped { bio with vecs := bio.vecs ++ [kernelVec buf chunk] } bio' (buf + chunk) (len - chunk) vs) :
    Mapped bio bio' buf len (kernelVec buf chunk :: vs) where
  vecs := by
    rw [h.vecs]
    rw [append_assoc, singleton_append]
  tiles := by
    have haddr : buf / pageSize * pageSize + buf % pageSize = buf := div_add_mod' buf pageSize
    have htiles := h.tiles
    rw [← haddr] at htiles
    have htile := Tiles.cons htiles
    rw [haddr, Nat.add_sub_cancel' hle] at htile
    exact htile
  valid := forall_mem_cons.2 ⟨hvalid, h.valid⟩
  length := by rw [length_cons, h.length, hstep, add_comm]
  max _ := by
    have hmax := h.max
    have hlength := h.length
    dsimp only at hmax
    rw [length_append, length_singleton] at hmax
    rw [length_cons]
    by_cases hrest : len - chunk = 0
    · rw [hrest] at hlength
      change vs.length = 0 at hlength
      omega
    · omega

theorem bioMapKernBuf_spec (hn : len ≤ n) :
    wp (bioMapKernBuf io n bio buf len) (fun bio' s' => s' = s ∧ ∃ vs, Mapped bio bio' buf len vs)
      (fun e s' => s' = s ∧ e ≠ .assert ∧ (io.Calm → bio.size + len < 2 ^ 32 →
        bio.maxVecs < bio.vecs.length + vecsFor buf len)) s := by
  induction n generalizing bio buf len with
  | zero =>
    obtain rfl := le_zero.1 hn
    exact ⟨rfl, [], mapped_nil bio buf⟩
  | succ n ih =>
    unfold bioMapKernBuf
    split <;> rename_i hlen
    · rw [hlen]
      exact ⟨rfl, [], mapped_nil bio buf⟩
    · have hstep := vecsFor_step buf hlen
      have hoff : buf % pageSize < pageSize := mod_lt _ (by decide)
      dsimp only
      generalize hchunk : min (pageSize - buf % pageSize) len = chunk at hstep
      have hvalid : (kernelVec buf chunk).Valid :=
        ⟨show chunk ≠ 0 by omega, hoff, show chunk ≤ pageSize - buf % pageSize by omega⟩
      cases hpage : io.pages (buf / pageSize) with
      | false =>
        refine ⟨rfl, nofun, fun hcalm => ?_⟩
        rw [hcalm.pages] at hpage
        cases hpage
      | true =>
        refine wp_call (bioAddPage_spec hvalid) (fun e s₁ h₁ => ?_) fun bio₁ s₁ h₁ => ?_
        · obtain ⟨rfl, hret, hcause⟩ := h₁
          refine ⟨rfl, hret, fun _ hsize => ?_⟩
          have hfull := hcause (show bio.size + chunk < _ by omega)
          omega
        obtain ⟨rfl, rfl, hcount⟩ := h₁
        refine wp_mono (fun bio' s' h' => ?_) (fun e s' h' => ?_) (ih (by omega))
        · obtain ⟨rfl, vs, hmapped⟩ := h'
          exact ⟨rfl, _, hmapped.cons hvalid hcount (by omega) hstep⟩
        · obtain ⟨rfl, hret, hcause⟩ := h'
          refine ⟨rfl, hret, fun hcalm hsize => ?_⟩
          rw [size_append] at hcause
          have hfull := hcause hcalm (show bio.size + (chunk + 0) + (len - chunk) < _ by omega)
          dsimp only at hfull
          rw [length_append, length_singleton] at hfull
          omega

theorem bioAlloc_spec {sector : BitVec 64} : wp (bioAlloc io op sector n)
      (fun bio s' => bio = { op, sector, maxVecs := n, vecs := [] } ∧ Upto s s' ∧ n ≤ 65535)
      (fun e s' => e ≠ .assert ∧ Upto s s' ∧ ¬ (io.Calm ∧ n ≠ 0 ∧ n ≤ 65535)) s := by
  refine wp_ite (fun _ => ⟨nofun, .refl s, fun h => by omega⟩) fun _ => ?_
  refine wp_call require_spec (fun _ _ h => ⟨h.ret, h.same, fun hc => h.cause hc.1⟩) fun _ s₁ h₁ => ?_
  refine wp_call require_spec (fun _ _ h => ⟨h.ret, h₁.trans h.same, fun hc => h.cause hc.1⟩)
    fun _ s₂ h₂ => ⟨rfl, h₁.trans h₂, by omega⟩

def AlignedFits (D : Device) (buf len : Nat) : Prop :=
  len < 2 ^ 32 ∧ vecsFor buf len ≤ 65535 ∧ vecsFor buf len + 2 ≤ D.vqNum

/-- The `bio` of whole blocks -/
def alignedBio (op : Op) (pos n : Nat) (vs : List Vec) : Bio where
  op := op
  sector := BitVec.ofNat 64 (pos / sectorSize)
  maxVecs := n
  vecs := vs

theorem aligned_start (D : Device) (op : Op) (n : Nat) (vs : List Vec) (hpos : pos < 2 ^ 64) :
    (alignedBio op pos n vs).start D.whole = pos / sectorSize :=
  (start_whole D _).trans (toNat_sector hpos)

theorem covers_aligned (hpos : sectorSize ∣ pos) (hlen : sectorSize ∣ len) :
    Covers [(pos / sectorSize, len / sectorSize)] pos len := by
  have hsector := Nat.div_mul_cancel hpos
  have hsectors := Nat.div_mul_cancel hlen
  generalize pos / sectorSize = a at hsector
  generalize len / sectorSize = b at hsectors
  subst hsector hsectors
  refine covers_sectors (le_refl _) ?_ (le_of_eq (add_mul ..).symm) ?_ <;>
    unfold sectorSize <;> omega

theorem blkdevAligned_spec (h : D.Blocks) (hpos : pos < 2 ^ 64) (hlen : 0 < len)
    (hblock : D.blockSize ∣ pos) (hblocks : D.blockSize ∣ len) :
    wp (blkdevAligned D io op buf len pos)
      (fun moved s' => moved = len ∧ PieceDone D op buf pos len (AlignedFits D buf len) s s')
      (PieceFails D io op pos len (AlignedFits D buf len) s) s := by
  have hsector : pos / sectorSize * sectorSize = pos := Nat.div_mul_cancel (Nat.dvd_trans h.sectors hblock)
  have hsectors : len / sectorSize * sectorSize = len := Nat.div_mul_cancel (Nat.dvd_trans h.sectors hblocks)
  have hnr : (buf % pageSize + len + pageSize - 1) / pageSize = vecsFor buf len := by
    unfold vecsFor
    rw [if_neg (Nat.ne_of_gt hlen)]
  have hnr_pos : vecsFor buf len ≠ 0 := by
    rw [vecsFor_step buf (ne_of_gt hlen)]
    omega
  have hfails : ∀ {e s₂}, e ≠ .assert → s₂.data = s.data → (io.Calm → ¬ AlignedFits D buf len) →
      PieceFails D io op pos len (AlignedFits D buf len) s e s₂ := fun hret hsame hcause =>
    ⟨hret, .of_eq hsame, fun _ hcalm _ => hcause hcalm⟩
  unfold blkdevAligned
  rw [if_neg (ne_of_gt hlen)]
  refine wp_ite (fun _ => hfails nofun rfl fun _ hfits => by have := hfits.1; omega) fun _ => ?_
  rw [hnr]
  refine wp_call bioAlloc_spec (fun e s₁ h₁ => ?_) fun bio s₁ h₁ => ?_
  · obtain ⟨hret, ⟨a, r, rfl⟩, hcause⟩ := h₁
    exact hfails hret rfl fun hcalm hfits => hcause ⟨hcalm, hnr_pos, hfits.2.1⟩
  obtain ⟨rfl, ⟨a, r, rfl⟩, hcount⟩ := h₁
  refine wp_call (bioMapKernBuf_spec (le_refl len)) (fun e s₂ h₂ => ?_) fun bio s₂ h₂ => ?_
  · obtain ⟨rfl, hret, hcause⟩ := h₂
    refine hfails hret rfl fun hcalm hfits => ?_
    have hfull := hcause hcalm (show 0 + len < _ by omega)
    rw [length_nil, zero_add] at hfull
    exact lt_irrefl _ hfull
  obtain ⟨rfl, vs, rfl, htiles, hvalid, hlength, -⟩ := h₂
  change wp (submitBioWait D io D.whole (alignedBio op pos (vecsFor buf len) vs) >>= fun _ =>
    pure (alignedBio op pos (vecsFor buf len) vs).size) _ _ _
  have hsize : (alignedBio op pos (vecsFor buf len) vs).size = len := htiles.size
  have hready : (alignedBio op pos (vecsFor buf len) vs).Ready D := by
    refine ⟨⟨fun hempty => ?_, le_of_eq hlength⟩, hvalid, ?_, ?_⟩
    · have hempty : vs.length = 0 := length_eq_zero_iff.2 hempty
      exact hnr_pos (hlength.symm.trans hempty)
    · rw [hsize]
      exact ⟨ne_of_gt hlen, mod_eq_zero_of_dvd hblocks,
        mod_eq_zero_of_dvd (dvd_trans h.sectors hblocks)⟩
    · rw [← start_whole D, aligned_start _ _ _ _ hpos, hsector, mod_eq_of_lt hpos]
      exact mod_eq_zero_of_dvd hblock
  refine wp_call (submitBioWait_spec hready (ne_of_gt h.blockSize_pos)) (fun e s₃ h₃ => ?_) fun _ s₃ h₃ => ?_
  · obtain ⟨hret, hdisk, hcause⟩ := h₃
    refine ⟨hret, ?_, fun _ hcalm hin hfits => hcause ⟨hcalm, ?_, ?_⟩⟩
    · rcases hdisk with hdisk | ⟨hop, arrived, hdisk⟩
      · exact .of_eq hdisk
      · rw [aligned_start _ _ _ _ hpos, hsector, hsize] at hdisk
        refine ⟨fun x hx => ?_, fun hread => ?_⟩
        · rw [hdisk]
          exact torn_outside hx
        · rw [hread] at hop
          cases hop
    · show vs.length + 2 ≤ _
      rw [hlength]
      exact hfits.2.2
    · rw [aligned_start _ _ _ _ hpos, hsize]
      unfold sectorSize at *
      omega
  obtain ⟨haccepts, a', r', rfl⟩ := h₃
  have hdisk := mul_le_mul_right sectorSize haccepts.disk
  rw [aligned_start _ _ _ _ hpos, hsize, add_mul, hsector, hsectors] at hdisk
  have hqueue : vs.length + 2 ≤ D.vqNum := haccepts.queue
  refine ⟨hsize, ⟨?_, hdisk, ⟨by omega, hcount, by omega⟩, fun _ => ?_⟩⟩
  · unfold Machine.after Machine.transfer
    rw [aligned_start _ _ _ _ hpos, hsector, hsize]
    cases op with
    | read =>
      show Moved .read buf pos len s { Machine.scatter pos vs _ with log := _, allocs := _, requests := _ }
      rw [htiles.scatter]
      exact ⟨rfl, rfl⟩
    | write =>
      refine ⟨?_, rfl⟩
      exact Bytes.write_congr fun x hx => (htiles.gather hx).trans (Bytes.slice_of_lt hx).symm
  · refine ⟨[_], rfl, ?_⟩
    rw [aligned_start _ _ _ _ hpos, hsize]
    exact covers_aligned (dvd_trans h.sectors hblock) (dvd_trans h.sectors hblocks)

/-! ## Requests -/

theorem PieceDone.trans (h : PieceDone D op buf pos k F s s')
    (h' : PieceDone D op (buf + k) (pos + k) l G s' s'') : PieceDone D op buf pos (k + l) (F ∧ G) s s'' where
  moved := h.moved.trans h'.moved
  disk := by
    have := h'.disk
    omega
  fits := ⟨h.fits, h'.fits⟩
  log hbs := by
    obtain ⟨new, hlog, hcovers⟩ := h.log hbs
    obtain ⟨new', hlog', hcovers'⟩ := h'.log hbs
    refine ⟨new' ++ new, ?_, hcovers.append hcovers'⟩
    rw [hlog', hlog, append_assoc]

theorem PieceDone.then_fails
    (h : PieceDone D op buf pos k F s s') (h' : PieceFails D io op (pos + k) l G s' e s'') :
    PieceFails D io op pos (k + l) (F ∧ G) s e s'' where
  ret := h'.ret
  spared := h.moved.spared.after h'.spared
  cause hbs hcalm hin hfits := h'.cause hbs hcalm (by omega) hfits.2

theorem PieceFails.mono (h : PieceFails D io op pos k F s e s') (hle : k ≤ l)
    (hfits : G → F) : PieceFails D io op pos l G s e s' where
  ret := h.ret
  spared := h.spared.mono hle
  cause hbs hcalm hin hG := h.cause hbs hcalm (by omega) (hfits hG)

theorem PieceDone.congr (h : PieceDone D op buf pos k F s s') (hfits : F → G) :
    PieceDone D op buf pos k G s s' :=
  ⟨h.moved, h.disk, hfits h.fits, h.log⟩

theorem Piece.congr (h : Piece D io op buf pos len F s f s') (hfits : F ↔ G) :
    Piece D io op buf pos len G s f s' :=
  wp_mono (fun _ _ hs => hs.congr hfits.1) (fun _ _ hs => hs.mono (le_refl _) hfits.2) h

/-- Pieces that follow each other are one piece. -/
theorem PieceDone.next (h : PieceDone D op buf pos k F s s')
    (h' : Piece D io op (buf + k) (pos + k) l G s' f s') (hlen : k + l = len) (hfits : F ∧ G ↔ H) :
    Piece D io op buf pos len H s f s' := by
  subst hlen
  exact .congr (wp_mono (fun _ _ => h.trans) (fun _ _ => h.then_fails) h') hfits

def BlocksFit (D : Device) (buf len : Nat) : Prop :=
  (D.blockSize ≤ len → AlignedFits D buf (len - len % D.blockSize)) ∧
    (len % D.blockSize ≠ 0 → PartialFits D)

section

variable (h : D.Blocks) (hpos : pos < 2 ^ 64) (haligned : D.blockSize ∣ pos) (hdone : done < len)

include h hpos haligned hdone

theorem rawTail_spec (hrest : len - done < D.blockSize) :
    Piece D io op (buf + done) pos (len - done) (PartialFits D) s (rawTail D io op buf len pos done) s := by
  unfold rawTail
  rw [if_pos hdone]
  refine blkdevPartialBlock_spec h hpos (by omega) ?_
  omega

theorem rawBlocks_spec :
    Piece D io op (buf + done) pos (len - done) (BlocksFit D (buf + done) (len - done)) s
      (rawBlocks D io op buf len pos done) s := by
  have hbs := h.blockSize_pos
  have hmod := mod_lt (len - done) hbs
  unfold rawBlocks
  split <;> rename_i hwhole
  · obtain ⟨n, hn⟩ : ∃ n, n = len - done - (len - done) % D.blockSize := ⟨_, rfl⟩
    rw [← hn]
    have hblocks : D.blockSize ∣ n := hn ▸ dvd_sub_mod (len - done)
    refine wp_call (blkdevAligned_spec h hpos (by omega) haligned hblocks)
      (fun e s₁ h₁ => h₁.mono (by omega) fun hfits => hn ▸ hfits.1 hwhole) fun moved s₁ h₁ => ?_
    obtain ⟨rfl, hpiece⟩ := h₁
    have hdisk := hpiece.disk
    have hsize := D.size_lt
    rw [mod_eq_of_lt (by omega)]
    by_cases htail : done + moved < len
    · have hspec : Piece D io op (buf + (done + moved)) _ _ _ s₁ _ s₁ :=
        rawTail_spec h (by omega) (Nat.dvd_add haligned hblocks) htail (by omega)
      rw [← add_assoc] at hspec
      exact hpiece.next hspec (by omega) ⟨fun hfits => ⟨fun _ => hn ▸ hfits.1, fun _ => hfits.2⟩,
        fun hfits => ⟨hn ▸ hfits.1 hwhole, hfits.2 (by omega)⟩⟩
    · unfold rawTail
      rw [if_neg htail]
      have hlen : moved = len - done := by omega
      rw [hlen] at hpiece
      refine hpiece.congr fun hfits => ⟨fun _ => ?_, fun hne => absurd ?_ hne⟩
      · rw [← hn, hlen]
        exact hfits
      · omega
  · refine (rawTail_spec h hpos haligned hdone (by omega)).congr
      ⟨fun hfits => ⟨fun hle => absurd hle hwhole, fun _ => hfits⟩, fun hfits => hfits.2 ?_⟩
    rw [mod_eq_of_lt (by omega)]
    omega

end

def headLen (D : Device) (pos len : Nat) : Nat :=
  if pos % D.blockSize = 0 then 0 else min (D.blockSize - pos % D.blockSize) len

/-- What a request needs apart from memory: room for three buffers if it is not of whole blocks, and not
too many bytes and vectors. -/
structure RawFits (D : Device) (buf pos len : Nat) : Prop where
  head : pos % D.blockSize ≠ 0 → PartialFits D
  blocks : headLen D pos len < len → BlocksFit D (buf + headLen D pos len) (len - headLen D pos len)

theorem blkdevRaw_spec {len pos : BitVec 64} (h : D.Blocks) (hbuf : buf ≠ 0) (hlen : len.toNat ≠ 0) :
    Piece D io op buf pos.toNat len.toNat (RawFits D buf pos.toNat len.toNat) s
      (blkdevRaw D io op buf len pos) s := by
  have hpos := pos.isLt
  have hbs := h.blockSize_pos
  generalize hp : pos.toNat = p at hpos
  generalize hl : len.toNat = l at hlen
  have hmod := mod_lt p hbs
  have hmod_le := mod_le p D.blockSize
  unfold blkdevRaw
  rw [if_neg hbuf, hl, hp, if_neg hlen]
  by_cases haligned : p % D.blockSize = 0
  · have hhead : headLen D p l = 0 := if_pos haligned
    rw [if_neg (not_not.2 haligned)]
    refine (rawBlocks_spec h hpos (Nat.dvd_of_mod_eq_zero haligned) (Nat.pos_of_ne_zero hlen)).congr
      ⟨fun hfits => ⟨fun hne => absurd haligned hne, fun _ => by rw [hhead]; exact hfits⟩, fun hfits => ?_⟩
    have hblocks := hfits.blocks
    rw [hhead] at hblocks
    exact hblocks (Nat.pos_of_ne_zero hlen)
  · have hhead : headLen D p l = min (D.blockSize - p % D.blockSize) l := if_neg haligned
    rw [if_pos haligned]
    rw [← hhead]
    have hle : headLen D p l ≤ l := by omega
    refine wp_call (blkdevPartialBlock_spec h hpos (show 0 < headLen D p l by omega) (by omega))
      (fun e s₁ h₁ => h₁.mono hle fun hfits => hfits.head haligned) fun _ s₁ h₁ => ?_
    have hdisk := h₁.disk
    have hsize := D.size_lt
    split_ifs with hall
    · have hdone := h₁
      rw [hall] at hdone
      exact hdone.congr fun hfits => ⟨fun _ => hfits, fun hlt => absurd hlt (by omega)⟩
    · rw [mod_eq_of_lt (by omega)]
      have hnext : D.blockSize ∣ p + headLen D p l := by
        have hblock : p + headLen D p l = p - p % D.blockSize + D.blockSize := by omega
        rw [hblock]
        exact Nat.dvd_add (Nat.dvd_sub_mod p) (Nat.dvd_refl _)
      exact h₁.next (rawBlocks_spec h (by omega) hnext (show headLen D p l < l by omega))
        (Nat.add_sub_cancel' hle) ⟨fun hfits => ⟨fun _ => hfits.1, fun _ => hfits.2⟩,
          fun hfits => ⟨hfits.head haligned, hfits.blocks (by omega)⟩⟩

theorem blkdevRaw_empty {len pos : BitVec 64} (hbuf : buf ≠ 0) (hlen : len.toNat = 0) :
    blkdevRaw D io op buf len pos s = .ok () s := by
  unfold blkdevRaw
  rw [if_neg hbuf, if_pos hlen]
  rfl

theorem blkdevRaw_cases {len pos : BitVec 64} (h : D.Blocks) : wp (blkdevRaw D io op buf len pos)
      (fun _ s' => Moved op buf pos.toNat len.toNat s s' ∧
        (len.toNat ≠ 0 → pos.toNat + len.toNat ≤ D.capacity * sectorSize))
      (fun e s' => e ≠ .assert ∧ Spared op pos.toNat len.toNat s s') s := by
  by_cases hbuf : buf = 0
  · rw [hbuf]
    exact ⟨nofun, fun _ _ => rfl, fun _ => rfl⟩
  · by_cases hlen : len.toNat = 0
    · refine wp_of_ok (blkdevRaw_empty hbuf hlen) ⟨?_, fun hne => absurd hlen hne⟩
      rw [hlen]
      constructor <;> rw [write_zero, ite_self]
    · exact wp_mono (fun _ _ hs' => ⟨hs'.moved, fun _ => hs'.disk⟩) (fun _ _ hs' => ⟨hs'.ret, hs'.spared⟩)
        (blkdevRaw_spec h hbuf hlen)

def EndsWith (f : B Unit) (s : Machine) (p : Machine → Bool) : Bool :=
  match f s with
  | .ok _ s' => p s'
  | .error _ _ => false

theorem endsWith_iff {q : Machine → Bool} :
    EndsWith f s q = true ↔ ∃ s', f s = .ok () s' ∧ q s' = true := by
  unfold EndsWith
  cases hf : f s with
  | ok a s' =>
    refine ⟨fun hq => ⟨s', rfl, hq⟩, ?_⟩
    rintro ⟨s'', heq, hq⟩
    cases heq
    exact hq
  | error e s' =>
    refine ⟨nofun, ?_⟩
    rintro ⟨s'', heq, -⟩
    cases heq

def calmEnv : Env where
  alloc _ := true
  pages _ := true
  answer _ := .done
  register _ := true

theorem calmEnv_calm : calmEnv.Calm := ⟨fun _ => rfl, fun _ => rfl, fun _ => rfl⟩

/-- A disk of which the bytes tell their place, and a memory of zeros -/
def numbered : Machine where
  data x := UInt8.ofNat (x / 256)
  mem _ := 0
  bounce _ := 0
  allocs := 0
  requests := 0
  parts := []
  log := []

/-- A disk with two logical blocks in a sector -/
def halfSectors : Device where
  capacity := 4
  blockSize := 256
  vqNum := 128
  size_lt := by decide

def sectorDisk : Device where
  capacity := 4
  blockSize := 512
  vqNum := 128
  size_lt := by decide

end ZzzOs.Fs.Block
