import ZzzOs.Mm.Vma.Model
import Mathlib.Data.List.GetD

/-!
# The initial stack of a program

`do_execve` pushes the strings of `argv` and `envp`, sixteen bytes for `AT_RANDOM` and the table below
`USER_STACK_TOP`, through the direct map: only an address that is not mapped stops it, and only the
strings are measured against the stack. Below the stack the signal trampoline is mapped.

The frames of the new `mm` are its own and distinct, so its memory is given by virtual addresses.
-/

namespace ZzzOs.Fs.Exec

open Lib Mm List Nat

def e2big : Int := 7

def maxArgStrlen : Nat := pageSize * 32
def userStackTop : Nat := 0x3f00000000
def userStackPages : Nat := 256
def userStackSize : Nat := userStackPages * pageSize
def stackBase : Nat := userStackTop - userStackSize
def userSigtrampAddr : Nat := stackBase - pageSize
def userStackAlign : Nat := 16
def elfAuxEntries : Nat := 12

/-- The new address space: the pages that are mapped, the bytes, and the ranges written so far, a first
address and a length each. -/
structure Image where
  mapped : Nat → Bool
  byte : Nat → UInt8
  log : List (Nat × Nat)

/-- The bytes `bs` at `va`. -/
def place (va : Nat) (bs : List UInt8) (byte : Nat → UInt8) : Nat → UInt8 := fun a =>
  if va ≤ a ∧ a < va + bs.length then bs.getD (a - va) 0 else byte a

def Image.memcpy (im : Image) (va : Nat) (bs : List UInt8) : Image :=
  { im with byte := place va bs im.byte, log := (va, bs.length) :: im.log }

/-- The loop of `copy_string_to_stack`: up to the end of each page. -/
def copyFrom : Nat → Nat → List UInt8 → Image → Bool × Image
  | 0, _, _, im => (true, im)
  | fuel + 1, va, src, im =>
    if src = [] then (true, im)
    else
      let chunk := min (pageSize - va % pageSize) src.length
      if im.mapped (va / pageSize) then
        copyFrom fuel (va + chunk) (src.drop chunk) (im.memcpy va (src.take chunk))
      else (false, im)

def copyStringToStack (dst : Nat) (src : List UInt8) (im : Image) : Bool × Image :=
  copyFrom src.length dst src im

def validArgLen (p len : Nat) : Bool :=
  len ≠ 0 && len ≤ maxArgStrlen && stackBase + len ≤ p

/-- The loop of `copy_strings`, over the strings from the last to the first; the value is `bprm->p`. -/
def pushStrings : List (List UInt8) → Nat → Image → Except Int Nat × Image
  | [], p, im => (.ok p, im)
  | s :: rest, p, im =>
    let len := s.length + 1
    if validArgLen p len = false then (.error (-e2big), im)
    else
      match copyStringToStack (p - len) (s ++ [0]) im with
      | (false, im) => (.error (-efault), im)
      | (true, im) => pushStrings rest (p - len) im

def copyStrings (strings : List (List UInt8)) (p : Nat) (im : Image) : Except Int Nat × Image :=
  pushStrings strings.reverse p im

/-- The fields of the `linux_binprm` that `prepare_elf_aux` sets. -/
structure ElfAux where
  phdr : Nat
  phent : Nat
  phnum : Nat
  entry : Nat

structure LayoutAlloc where
  argvUser : Bool
  envpUser : Bool
  words : Bool

def randomBytes : List UInt8 :=
  [0x13, 0x57, 0x9b, 0xdf, 0x24, 0x68, 0xac, 0xe0, 0x31, 0x75, 0xb9, 0xfd, 0x42, 0x86, 0xca, 0x0e]

def pointers : Nat → List (List UInt8) → List Nat
  | _, [] => []
  | cursor, s :: rest => cursor :: pointers (cursor + (s.length + 1)) rest

def auxv (x : ElfAux) (random : Nat) : List Nat :=
  [3, x.phdr, 4, x.phent, 5, x.phnum, 9, x.entry, 6, pageSize, 11, 0, 12, 0, 13, 0, 14, 0, 23, 0,
    25, random, 0, 0]

/-- The words of the table before it is padded. -/
def totalWords (argc envc : Nat) : Nat := 1 + (argc + 1) + (envc + 1) + elfAuxEntries * 2

def padWords (n : Nat) : Nat := (userStackAlign / 8 - n % (userStackAlign / 8)) % (userStackAlign / 8)

def totalBytes (argc envc : Nat) : Nat :=
  (totalWords argc envc + padWords (totalWords argc envc)) * 8

def wordBytes (w : Nat) : List UInt8 := (List.range 8).map fun i => UInt8.ofNat (w / 256 ^ i)

def stackWords (argv envp : List (List UInt8)) (x : ElfAux) (argStart envStart random : Nat) :
    List Nat :=
  [argv.length] ++ (pointers argStart argv ++ [0]) ++ (pointers envStart envp ++ [0]) ++
    auxv x random ++ List.replicate (padWords (totalWords argv.length envp.length)) 0

/-- The value is the stack pointer that the program starts with. -/
def createUserStackLayout (argv envp : List (List UInt8)) (x : ElfAux) (k : LayoutAlloc)
    (argStart envStart : Nat) (im : Image) : Except Int Nat × Image :=
  if k.argvUser = false ∨ k.envpUser = false then (.error (-enomem), im)
  else
    let random := envStart - randomBytes.length
    match copyStringToStack random randomBytes im with
    | (false, im) => (.error (-efault), im)
    | (true, im) =>
      let p := alignDown random userStackAlign
      if k.words = false then (.error (-enomem), im)
      else
        let p := p - totalBytes argv.length envp.length
        let words := stackWords argv envp x argStart envStart random
        match copyStringToStack p (words.flatMap wordBytes) im with
        | (false, im) => (.error (-efault), im)
        | (true, im) => (.ok p, im)

/-- The part of `do_execve` that fills the stack. -/
def fillStack (argv envp : List (List UInt8)) (x : ElfAux) (k : LayoutAlloc) (im : Image) :
    Except Int Nat × Image :=
  match copyStrings argv userStackTop im with
  | (.error e, im) => (.error e, im)
  | (.ok argStart, im) =>
    match copyStrings envp argStart im with
    | (.error e, im) => (.error e, im)
    | (.ok envStart, im) => createUserStackLayout argv envp x k argStart envStart im

/-- `sigtramp_code` of RISC-V -/
def sigtrampCode : List UInt8 := [0x93, 0x08, 0xb0, 0x08, 0x73, 0, 0, 0, 0x6f, 0, 0, 0]

/-- What `setup_arg_pages` leaves: the stack and the trampoline. -/
def setupArgPages : Image where
  mapped n := decide (userSigtrampAddr ≤ n * pageSize ∧ n * pageSize < userStackTop)
  byte := place userSigtrampAddr sigtrampCode fun _ => 0
  log := []

/-! ## Copying -/

@[simp] theorem place_nil (va : Nat) (byte : Nat → UInt8) : place va [] byte = byte := by
  funext a
  exact if_neg fun h => by simp at h; omega

theorem place_append (va : Nat) (bs cs : List UInt8) (byte : Nat → UInt8) :
    place va (bs ++ cs) byte = place (va + bs.length) cs (place va bs byte) := by
  funext a
  simp only [place, length_append]
  split_ifs with h1 h2 h3 h3
  · rw [getD_append_right _ _ _ _ (by omega), Nat.sub_sub]
  · rw [getD_append _ _ _ _ (by omega)]
  all_goals first | rfl | omega

theorem place_of_lt {va a : Nat} (bs : List UInt8) (byte : Nat → UInt8) (h : a < va) :
    place va bs byte a = byte a :=
  if_neg fun h' => by omega

variable {fuel p : Nat} {table src bs s : List UInt8}

/-- A range of mapped pages is copied to, in pieces that lie in it and the first of which begins with
it. -/
theorem copyFrom_mapped (va : Nat) (src : List UInt8) {im : Image} (hfuel : src.length ≤ fuel)
    (hmap : ∀ a, va ≤ a → a < va + src.length → im.mapped (a / pageSize) = true) :
    ∃ log, copyFrom fuel va src im =
        (true, { im with byte := place va src im.byte, log := log ++ im.log }) ∧
      (∀ w ∈ log, va ≤ w.1 ∧ w.1 + w.2 ≤ va + src.length) ∧ (src ≠ [] → ∃ w ∈ log, w.1 = va) := by
  induction fuel generalizing va src im with
  | zero =>
    obtain rfl := length_eq_zero_iff.1 (le_zero.1 hfuel)
    refine ⟨[], ?_, by simp, by simp⟩
    simp [copyFrom]
  | succ fuel ih =>
    by_cases hsrc : src = []
    · refine ⟨[], ?_, by simp, fun h => absurd hsrc h⟩
      simp [copyFrom, hsrc]
    have hpos : 0 < src.length := length_pos_of_ne_nil hsrc
    have hpage : va % pageSize < pageSize := mod_lt _ (by decide)
    obtain ⟨chunk, hchunk⟩ : ∃ c, c = min (pageSize - va % pageSize) src.length := ⟨_, rfl⟩
    have hle : chunk ≤ src.length := hchunk ▸ min_le_right ..
    have hlen : (src.take chunk).length = chunk := by simp [hle]
    obtain ⟨log, hcopy, hin, _⟩ := @ih (va + chunk) (src.drop chunk)
      (im.memcpy va (src.take chunk)) (by simp; omega)
      (fun a h1 h2 => hmap a (by omega) (by simp at h2; omega))
    refine ⟨log ++ [(va, chunk)], ?_, fun w hw => ?_, fun _ => ⟨(va, chunk), by simp⟩⟩
    · rw [copyFrom, if_neg hsrc, ← hchunk, if_pos (hmap va le_rfl (by omega)), hcopy]
      simp only [Image.memcpy, hlen, append_assoc, singleton_append]
      conv_rhs => rw [← take_append_drop chunk src, place_append, hlen]
    · rcases mem_append.1 hw with hw | hw
      · have := hin w hw
        simp only [length_drop] at this
        omega
      · obtain rfl := mem_singleton.1 hw
        exact ⟨le_rfl, by simp; omega⟩

theorem copyFrom_unmapped {va : Nat} {im : Image} (hfuel : src.length ≤ fuel)
    (hsrc : src ≠ []) (hmap : im.mapped (va / pageSize) = false) :
    copyFrom fuel va src im = (false, im) := by
  cases fuel with
  | zero => exact absurd (length_eq_zero_iff.1 (le_zero.1 hfuel)) hsrc
  | succ fuel => simp [copyFrom, hsrc, hmap]

theorem copyFrom_log (fuel va : Nat) (src : List UInt8) (im : Image) :
    ∃ log, (copyFrom fuel va src im).2.log = log ++ im.log := by
  induction fuel generalizing va src im with
  | zero => exact ⟨[], rfl⟩
  | succ fuel ih =>
    simp only [copyFrom]
    split_ifs
    · exact ⟨[], rfl⟩
    · obtain ⟨log, h⟩ := ih (va + min (pageSize - va % pageSize) src.length)
        (src.drop (min (pageSize - va % pageSize) src.length))
        (im.memcpy va (src.take (min (pageSize - va % pageSize) src.length)))
      exact ⟨log ++ [_], by rw [h, append_assoc]; rfl⟩
    · exact ⟨[], rfl⟩

theorem place_comm {va vb : Nat} (h : va + bs.length ≤ vb) (cs : List UInt8)
    (byte : Nat → UInt8) : place va bs (place vb cs byte) = place vb cs (place va bs byte) := by
  funext a
  simp only [place]
  split_ifs <;> first | rfl | omega

structure Ready (im : Image) : Prop where
  stack : ∀ a, userSigtrampAddr ≤ a → a < userStackTop → im.mapped (a / pageSize) = true
  below : ∀ a < userSigtrampAddr, im.mapped (a / pageSize) = false

/-- Only the stack was written to. -/
structure Kept (im im' : Image) : Prop where
  mapped : im'.mapped = im.mapped
  low : ∀ a < stackBase, im'.byte a = im.byte a
  log : ∃ log, im'.log = log ++ im.log ∧ ∀ w ∈ log, stackBase ≤ w.1 ∧ w.1 + w.2 ≤ userStackTop

theorem Kept.refl (im : Image) : Kept im im := ⟨rfl, fun _ _ => rfl, [], rfl, by simp⟩

theorem Kept.trans {im im₁ im₂ : Image} (h : Kept im im₁) (h' : Kept im₁ im₂) : Kept im im₂ := by
  obtain ⟨log, hlog, hin⟩ := h.log
  obtain ⟨log', hlog', hin'⟩ := h'.log
  refine ⟨h'.mapped.trans h.mapped, fun a ha => (h'.low a ha).trans (h.low a ha), log' ++ log, ?_, ?_⟩
  · rw [hlog', hlog, append_assoc]
  · exact fun w hw => (mem_append.1 hw).elim (hin' w) (hin w)

theorem Kept.ready {im im' : Image} (h : Kept im im') (hr : Ready im) : Ready im' :=
  ⟨h.mapped ▸ hr.stack, h.mapped ▸ hr.below⟩

theorem setupArgPages_ready : Ready setupArgPages := by
  refine ⟨fun a h1 h2 => decide_eq_true ?_, fun a h1 => decide_eq_false ?_⟩
  all_goals
    simp only [userSigtrampAddr, stackBase, userStackTop, userStackSize, userStackPages,
      pageSize_eq] at *
    omega

theorem copyStringToStack_stack {im : Image} (dst : Nat) (src : List UInt8) (h : Ready im)
    (hlow : stackBase ≤ dst) (hhigh : dst + src.length ≤ userStackTop) :
    ∃ im', copyStringToStack dst src im = (true, im') ∧ Kept im im' ∧
      im'.byte = place dst src im.byte := by
  have hbase : userSigtrampAddr ≤ stackBase := sub_le ..
  have hmap : ∀ a, dst ≤ a → a < dst + src.length → im.mapped (a / pageSize) = true :=
    fun a h1 h2 => h.stack a (by omega) (by omega)
  obtain ⟨log, hcopy, hin, _⟩ := copyFrom_mapped dst src le_rfl hmap
  refine ⟨_, hcopy, ⟨rfl, fun a ha => place_of_lt _ _ (by omega), log, rfl, fun w hw => ?_⟩, rfl⟩
  have := hin w hw
  omega

/-! ## Strings -/

variable (strings argv envp : List (List UInt8)) (x : ElfAux) (k : LayoutAlloc)

/-- The strings as they lie in memory. -/
def blob : List UInt8 := strings.flatMap (· ++ [0])

theorem length_blob_cons (s : List UInt8) (rest : List (List UInt8)) :
    (blob (s :: rest)).length = s.length + 1 + (blob rest).length := by
  rw [blob, flatMap_cons, length_append, length_append]
  rfl

theorem blob_append (ss ts : List (List UInt8)) : blob (ss ++ ts) = blob ss ++ blob ts :=
  flatMap_append

theorem length_blob_reverse : (blob strings.reverse).length = (blob strings).length :=
  ((reverse_perm strings).flatMap_right _).length_eq

def Refused (p : Nat) : Prop :=
  (∃ s ∈ strings, maxArgStrlen < s.length + 1) ∨ p < stackBase + (blob strings).length

theorem pushStrings_spec {im : Image} (h : Ready im) (hlow : stackBase ≤ p)
    (hhigh : p ≤ userStackTop) :
    ∃ im', Kept im im' ∧ ((Refused strings p ∧ pushStrings strings p im = (.error (-e2big), im')) ∨
      (¬Refused strings p ∧ pushStrings strings p im = (.ok (p - (blob strings).length), im') ∧
        im'.byte = place (p - (blob strings).length) (blob strings.reverse) im.byte)) := by
  induction strings generalizing p im with
  | nil => exact ⟨im, .refl im, .inr ⟨by simp [Refused, blob, hlow], rfl, (place_nil ..).symm⟩⟩
  | cons s rest ih =>
    have hlen := length_blob_cons s rest
    by_cases hvalid : validArgLen p (s.length + 1) = true
    · have hbounds := hvalid
      simp only [validArgLen, Bool.and_eq_true, decide_eq_true_eq] at hbounds
      have hblob : s ++ [0] = blob [s] := by simp [blob]
      obtain ⟨q, hq⟩ : ∃ q, p - (s.length + 1) = q := ⟨_, rfl⟩
      have hlow' : stackBase ≤ q := by omega
      obtain ⟨im₁, hcopy, hkept, hbyte⟩ := copyStringToStack_stack q (s ++ [0]) h hlow'
        (by simp; omega)
      obtain ⟨im', hkept', hrest⟩ := ih (hkept.ready h) hlow' (by omega)
      have hrun : pushStrings (s :: rest) p im = pushStrings rest q im₁ := by
        simp [pushStrings, hvalid, hq, hcopy]
      have hrefused : Refused (s :: rest) p ↔ Refused rest q := by
        simp only [Refused, mem_cons, exists_eq_or_imp, hlen, not_lt.2 hbounds.1.2, false_or]
        exact or_congr Iff.rfl (by omega)
      have hstart : p - (blob (s :: rest)).length = q - (blob rest).length := by omega
      refine ⟨im', hkept.trans hkept', ?_⟩
      rw [hrun, hrefused, hstart]
      refine hrest.imp_right fun ⟨hfits, hok, hplace⟩ => ⟨hfits, hok, ?_⟩
      have hroom : stackBase + (blob rest).length ≤ q := not_lt.1 fun hlt => hfits (.inr hlt)
      have hrev := length_blob_reverse rest
      have hend : q - (blob rest).length + (blob rest.reverse).length = q := by omega
      rw [hplace, hbyte, hblob, reverse_cons, blob_append, place_append, hend,
        place_comm (by omega)]
    · refine ⟨im, .refl im, .inl ⟨?_, by simp [pushStrings, hvalid]⟩⟩
      simp only [validArgLen, Bool.and_eq_true, decide_eq_true_eq] at hvalid
      simp only [Refused, mem_cons, exists_eq_or_imp, hlen]
      omega

theorem copyStrings_spec {im : Image} (h : Ready im) (hlow : stackBase ≤ p)
    (hhigh : p ≤ userStackTop) :
    ∃ im', Kept im im' ∧ ((Refused strings p ∧ copyStrings strings p im = (.error (-e2big), im')) ∨
      (¬Refused strings p ∧ copyStrings strings p im = (.ok (p - (blob strings).length), im') ∧
        im'.byte = place (p - (blob strings).length) (blob strings) im.byte)) := by
  have hspec := pushStrings_spec strings.reverse h hlow hhigh
  simpa only [copyStrings, Refused, mem_reverse, length_blob_reverse, reverse_reverse] using hspec

/-! ## Together -/

/-- The bytes of the strings. -/
def stringBytes : Nat := (blob argv).length + (blob envp).length

def need : Nat :=
  (stringBytes argv envp + randomBytes.length + (userStackAlign - 1)) / userStackAlign *
    userStackAlign + totalBytes argv.length envp.length

/-- Everything was written to the stack, and if it does not fit there, the call fails and the
trampoline is whole. -/
def Safe (r : Except Int Nat × Image) : Prop :=
  (∀ w ∈ r.2.log, stackBase ≤ w.1 ∧ w.1 + w.2 ≤ userStackTop) ∧
    (userStackSize < need argv envp → (∃ e < 0, r.1 = .error e) ∧
      ∀ a, userSigtrampAddr ≤ a → a < stackBase → r.2.byte a = setupArgPages.byte a)

def StringsRefused : Prop :=
  (∃ s ∈ argv ++ envp, maxArgStrlen < s.length + 1) ∨ userStackSize < stringBytes argv envp

/-- The strings are refused, memory runs out before anything else is written, or there is room for the
random bytes and the table either fits or begins below the trampoline. -/
def Guarded : Prop :=
  StringsRefused argv envp ∨ k.argvUser = false ∨ k.envpUser = false ∨
    stringBytes argv envp + randomBytes.length ≤ userStackSize ∧
      (k.words = false ∨ need argv envp ≤ userStackSize ∨ userStackSize + pageSize < need argv envp)

theorem stackBase_add : stackBase + userStackSize = userStackTop := by decide

/-- The strings are refused, or they are in place and the layout follows. -/
theorem fillStack_strings : ∃ im, Kept setupArgPages im ∧
      ((StringsRefused argv envp ∧ fillStack argv envp x k setupArgPages = (.error (-e2big), im)) ∨
        (¬StringsRefused argv envp ∧
          fillStack argv envp x k setupArgPages = createUserStackLayout argv envp x k
            (userStackTop - (blob argv).length) (userStackTop - stringBytes argv envp) im ∧
          im.byte = place (userStackTop - stringBytes argv envp) (blob envp)
            (place (userStackTop - (blob argv).length) (blob argv) setupArgPages.byte))) := by
  have hsize := stackBase_add
  obtain ⟨im₁, hkept₁, ⟨hrefused, hrun⟩ | ⟨hfits, hrun, hbyte⟩⟩ :=
    copyStrings_spec argv setupArgPages_ready (show stackBase ≤ userStackTop by decide) le_rfl
  · refine ⟨im₁, hkept₁, .inl ⟨?_, by simp [fillStack, hrun]⟩⟩
    refine hrefused.imp (fun ⟨s, hs, hlong⟩ => ⟨s, mem_append_left _ hs, hlong⟩) fun hlt => ?_
    rw [stringBytes]
    omega
  simp only [Refused, not_or, not_exists, not_and, not_lt] at hfits
  obtain ⟨im₂, hkept₂, ⟨hrefused, hrun'⟩ | ⟨hfits', hrun', hbyte'⟩⟩ :=
    copyStrings_spec envp (hkept₁.ready setupArgPages_ready)
      (show stackBase ≤ userStackTop - (blob argv).length by omega) (sub_le ..)
  · refine ⟨im₂, hkept₁.trans hkept₂, .inl ⟨?_, by simp [fillStack, hrun, hrun']⟩⟩
    refine hrefused.imp (fun ⟨s, hs, hlong⟩ => ⟨s, mem_append_right _ hs, hlong⟩) fun hlt => ?_
    rw [stringBytes]
    omega
  · simp only [Refused, not_or, not_exists, not_and, not_lt] at hfits'
    refine ⟨im₂, hkept₁.trans hkept₂, .inr ⟨?_, ?_, ?_⟩⟩
    · rintro (⟨s, hs, hlong⟩ | hlt)
      · rcases mem_append.1 hs with hs | hs
        · exact absurd hlong (not_lt.2 (hfits.1 s hs))
        · exact absurd hlong (not_lt.2 (hfits'.1 s hs))
      · rw [stringBytes] at hlt
        omega
    · simp [fillStack, hrun, hrun', stringBytes, Nat.sub_sub]
    · rw [hbyte', hbyte, stringBytes, Nat.sub_sub]

theorem length_pointers (cursor : Nat) (strings : List (List UInt8)) :
    (pointers cursor strings).length = strings.length := by
  induction strings generalizing cursor with
  | nil => rfl
  | cons s rest ih => simp [pointers, ih]

theorem length_table (a b c : Nat) :
    ((stackWords argv envp x a b c).flatMap wordBytes).length =
      totalBytes argv.length envp.length := by
  have hlen : (stackWords argv envp x a b c).length = totalWords argv.length envp.length +
      padWords (totalWords argv.length envp.length) := by
    simp [stackWords, length_pointers, auxv, totalWords, elfAuxEntries]
    omega
  simp [length_flatMap, wordBytes, hlen, totalBytes]

/-- The stack was filled as it should, if it was `guarded`; else a piece begins below it. -/
def Filled (guarded : Prop) (argv envp : List (List UInt8)) (r : Except Int Nat × Image) : Prop :=
  (guarded ∧ Kept setupArgPages r.2 ∧ (userStackSize < need argv envp → ∃ e < 0, r.1 = .error e)) ∨
    (¬guarded ∧ ∃ w ∈ r.2.log, w.1 < stackBase)

variable {argv envp}

theorem Filled.error {guarded : Prop} {im : Image} {e : Int}
    (h : guarded) (hkept : Kept setupArgPages im) (he : e < 0) :
    Filled guarded argv envp (.error e, im) :=
  .inl ⟨h, hkept, fun _ => ⟨e, he, rfl⟩⟩

/-- The random bytes are copied to `random`, and the table to below `q`. -/
theorem layout_filled {im : Image} {random q : Nat} (words : Bool) (hkept : Kept setupArgPages im)
    (hrandom : random + 16 + stringBytes argv envp = userStackTop)
    (hsize : stringBytes argv envp ≤ userStackSize) (hq : q ≤ random)
    (hneed : need argv envp = userStackTop - q + table.length) (hpos : 0 < table.length) :
    Filled (stringBytes argv envp + 16 ≤ userStackSize ∧ (words = false ∨
        need argv envp ≤ userStackSize ∨ userStackSize + pageSize < need argv envp)) argv envp
      (match copyStringToStack random randomBytes im with
        | (false, im) => (.error (-efault), im)
        | (true, im) =>
          if words = false then (.error (-enomem), im)
          else
            match copyStringToStack (q - table.length) table im with
            | (false, im) => (.error (-efault), im)
            | (true, im) => (.ok (q - table.length), im)) := by
  have hready := hkept.ready setupArgPages_ready
  have htramp : userSigtrampAddr + pageSize = stackBase ∧ 0 < userSigtrampAddr := by decide
  have hpage := pageSize_eq
  have hsum := stackBase_add
  have hbytes : randomBytes.length = 16 := rfl
  by_cases hroom : stringBytes argv envp + 16 ≤ userStackSize
  · obtain ⟨im₁, hcopy, hkept₁, _⟩ := copyStringToStack_stack random randomBytes
      hready (by omega) (by omega)
    have hkept' := hkept.trans hkept₁
    have hready' := hkept'.ready setupArgPages_ready
    simp only [hcopy, hroom, true_and]
    by_cases hwords : words = false
    · rw [if_pos hwords]
      exact .error (.inl hwords) hkept' (by decide)
    rw [if_neg hwords]
    by_cases hfit : need argv envp ≤ userStackSize
    · obtain ⟨im₂, hcopy₂, hkept₂, _⟩ := copyStringToStack_stack (q - table.length) table
        hready' (by omega) (by omega)
      rw [hcopy₂]
      exact .inl ⟨.inr (.inl hfit), hkept'.trans hkept₂, fun h => absurd h (not_lt.2 hfit)⟩
    by_cases hbelow : userStackSize + pageSize < need argv envp
    · have hcopy₂ : copyStringToStack (q - table.length) table im₁ = (false, im₁) :=
        copyFrom_unmapped le_rfl (ne_nil_of_length_pos hpos) (hready'.below _ (by omega))
      rw [hcopy₂]
      exact .error (.inr (.inr hbelow)) hkept' (by decide)
    · -- the table begins in the trampoline
      obtain ⟨log, hcopy₂, _, hfirst⟩ := copyFrom_mapped (q - table.length) table
        le_rfl fun a h1 h2 => hready'.stack a (by omega) (by omega)
      obtain ⟨w, hw, hwp⟩ := hfirst (ne_nil_of_length_pos hpos)
      rw [copyStringToStack, hcopy₂]
      exact .inr ⟨not_or.2 ⟨hwords, not_or.2 ⟨hfit, hbelow⟩⟩, w, mem_append_left _ hw, by omega⟩
  · -- the random bytes begin in the trampoline
    obtain ⟨log, hcopy, _, hfirst⟩ := copyFrom_mapped random randomBytes le_rfl
      fun a h1 h2 => hready.stack a (by omega) (by omega)
    obtain ⟨w, hw, hwp⟩ := hfirst (by decide)
    refine .inr ⟨fun h => hroom h.1, w, ?_, by omega⟩
    obtain ⟨im₁, him⟩ : ∃ im₁, im₁ = { im with
      byte := place random randomBytes im.byte, log := log ++ im.log } := ⟨_, rfl⟩
    have hmem : w ∈ im₁.log := him ▸ mem_append_left _ hw
    rw [copyStringToStack, hcopy, ← him]
    dsimp only
    split_ifs
    · exact hmem
    · obtain ⟨log', hlog'⟩ := copyFrom_log table.length (q - table.length) table im₁
      have hlast : w ∈ (copyStringToStack (q - table.length) table im₁).2.log :=
        hlog' ▸ mem_append_right _ hmem
      split <;> simp_all

theorem fillStack_filled (argv envp : List (List UInt8)) (x : ElfAux) (k : LayoutAlloc) :
    Filled (Guarded argv envp k) argv envp (fillStack argv envp x k setupArgPages) := by
  obtain ⟨im, hkept, ⟨hrefused, hrun⟩ | ⟨hfits, hrun, _⟩⟩ := fillStack_strings argv envp x k
  · rw [hrun]
    exact .error (.inl hrefused) hkept (by decide)
  rw [hrun, createUserStackLayout]
  have hsize : stringBytes argv envp ≤ userStackSize := not_lt.1 fun hlt => hfits (.inr hlt)
  by_cases halloc : k.argvUser = false ∨ k.envpUser = false
  · rw [if_pos halloc]
    exact .error (.inr (halloc.imp_right .inl)) hkept (by decide)
  rw [if_neg halloc]
  have hguarded : Guarded argv envp k ↔ stringBytes argv envp + 16 ≤ userStackSize ∧
      (k.words = false ∨ need argv envp ≤ userStackSize ∨
        userStackSize + pageSize < need argv envp) := by
    simp only [Guarded, hfits, ← or_assoc, halloc, false_or]
    rfl
  have htable := length_table argv envp x (userStackTop - (blob argv).length)
    (userStackTop - stringBytes argv envp)
    (userStackTop - stringBytes argv envp - randomBytes.length)
  simp only [hguarded, ← htable]
  apply layout_filled k.words hkept
  · simp only [userStackTop, userStackSize, userStackPages, pageSize_eq, randomBytes,
      length_cons, length_nil] at *
    omega
  · exact hsize
  · exact alignDown_le ..
  · simp only [need, alignDown, userStackAlign, userStackTop, userStackSize, userStackPages,
      pageSize_eq, randomBytes, length_cons, length_nil] at *
    omega
  · rw [htable]
    simp only [totalBytes, totalWords]
    omega

/-- **The stack is filled safely exactly when it is guarded.** -/
theorem fillStack_safe_iff (argv envp : List (List UInt8)) (x : ElfAux) (k : LayoutAlloc) :
    Safe argv envp (fillStack argv envp x k setupArgPages) ↔ Guarded argv envp k := by
  rcases fillStack_filled argv envp x k with ⟨hguarded, hkept, herror⟩ | ⟨hguarded, w, hw, hlow⟩
  · obtain ⟨log, hlog, hin⟩ := hkept.log
    refine iff_of_true ⟨fun w hw => hin w ?_, fun hneed => ⟨herror hneed, fun a _ ha => ?_⟩⟩ hguarded
    · rw [hlog] at hw
      exact (mem_append.1 hw).resolve_right not_mem_nil
    · exact hkept.low a ha
  · exact iff_of_false (fun h => not_lt.2 (h.1 w hw).1 hlow) hguarded

/-- Eight strings of the greatest length fill the stack; the rest goes to the trampoline. -/
theorem full_argv_not_safe (hlen : s.length = 131071) :
    ¬Safe (List.replicate 8 s) []
      (fillStack (List.replicate 8 s) [] ⟨0, 0, 0, 0⟩ ⟨true, true, true⟩ setupArgPages) := by
  intro h
  rcases fillStack_filled (List.replicate 8 s) [] ⟨0, 0, 0, 0⟩ ⟨true, true, true⟩ with
    ⟨hguarded, _⟩ | ⟨_, w, hw, hlow⟩
  · have hbytes : stringBytes (List.replicate 8 s) [] = userStackSize := by
      simp [stringBytes, blob, userStackSize, userStackPages, pageSize_eq, hlen]
    rcases hguarded with (⟨s', hs', hlong⟩ | hlt) | h | h | h
    · rw [append_nil] at hs'
      obtain rfl : s' = s := eq_of_mem_replicate hs'
      rw [hlen] at hlong
      exact absurd hlong (by decide)
    · omega
    · cases h
    · cases h
    · have := h.1
      simp only [randomBytes, length_cons] at this
      omega
  · exact not_lt.2 (h.1 w hw).1 hlow

theorem long_argv_not_safe : ¬Safe (List.replicate 8 (List.replicate 131071 97)) []
    (fillStack (List.replicate 8 (List.replicate 131071 97)) [] ⟨0, 0, 0, 0⟩ ⟨true, true, true⟩
      setupArgPages) :=
  full_argv_not_safe length_replicate

end ZzzOs.Fs.Exec
