import ZzzOs.Mm.Mmap.Model
import ZzzOs.Mm.Pgtbl.Refine

/-!
# The thread id a clone stores for its child

With `CLONE_CHILD_SETTID`, `do_fork_uthread` stores the child's pid at a user address of the child;
with `CLONE_CHILD_CLEARTID`, `do_exit` stores 0 there. Both stores go byte by byte through
`pgtbl_lookup` and the direct map. Only the second looks at the areas, and nobody at the address.

A store is the physical address and the byte; the stores do not change the tables.
-/

namespace ZzzOs.Sched.Fork

open List Mm Mm.Pgtbl

/-- A byte stored through the direct map. -/
abbrev Store := Nat × BitVec 8

/-- The loop of `put_user_int_to_mm` and `clear_child_tid_user`, which stops at an address that is not
let through or not mapped. The flag says that it came to the end. -/
def storeBytes (allowed : Nat → Bool) (m : TableMem) (root uaddr : Nat) (val : BitVec 32) :
    List Nat → Except Fault (Bool × List Store)
  | [] => .ok (true, [])
  | i :: rest =>
    let va := (uaddr + i) % 2 ^ 64
    if allowed va = false then .ok (false, [])
    else do
      let pa ← pgtblLookup riscv64 root m va
      if pa = 0 then .ok (false, [])
      else do
        let (done, stores) ← storeBytes allowed m root uaddr val rest
        .ok (done, (pa, val.extractLsb' (8 * i) 8) :: stores)

def putUserIntToMm (m : TableMem) (mm : MmStruct) (uaddr : Nat) (val : BitVec 32) :
    Except Fault (Int × List Store) :=
  if uaddr = 0 then .ok (-efault, [])
  else if mm.pgdir = 0 then .ok (-efault, [])
  else do
    let (done, stores) ← storeBytes (fun _ => true) m mm.pgdir uaddr val (List.range 4)
    .ok (if done then 0 else -efault, stores)

/-- `!IS_ERR(vma) && (vma->flags & PROT_USER) && (vma->flags & PROT_WRITE)` -/
def userWrite (mm : MmStruct) (va : Nat) : Bool :=
  match Vma.find mm.vmas.list va with
  | none => false
  | some vma => vma.flags &&& protUser != 0 && vma.flags &&& protWrite != 0

/-- `clear_child_tid_user` of a task with this `mm` and `clear_child_tid`. -/
def clearChildTidUser (m : TableMem) (mm : Option MmStruct) (clearChildTid : Nat) :
    Except Fault (List Store) :=
  if clearChildTid = 0 then .ok []
  else
    match mm with
    | none => .ok []
    | some mm =>
      if mm.pgdir = 0 then .ok []
      else do
        let (_, stores) ← storeBytes (userWrite mm) m mm.pgdir clearChildTid 0 (List.range 4)
        .ok stores

/-- A request: whether its flags are all supported, and the flags and pointers of thread ids. -/
structure TidArgs where
  supported : Bool
  parentSettid : Bool
  childSettid : Bool
  childCleartid : Bool
  parentTid : Nat
  childTid : Nat
deriving DecidableEq

/-- What a clone returns and stores, and the `clear_child_tid` of its child if there is one. -/
structure Cloned where
  ret : Int
  stores : List Store
  child : Option Nat
deriving DecidableEq

/-- The part of `do_fork_uthread` after the child has its `mm`. `copied` is what `copy_to_user` returns
for the parent's pointer; where that fails, the child is destroyed again. -/
def doForkUthreadTids (m : TableMem) (mm : MmStruct) (pid : Nat) (copied : Int) (args : TidArgs) :
    Except Fault Cloned :=
  let setChildTid := if args.childSettid then args.childTid else 0
  let clearChildTid := if args.childCleartid then args.childTid else 0
  do
    let (err, stores) ←
      if args.childSettid then putUserIntToMm m mm setChildTid (BitVec.ofNat 32 pid) else .ok (0, [])
    if err < 0 then .ok ⟨err, stores, none⟩
    else if args.parentSettid ∧ copied < 0 then .ok ⟨copied, stores, none⟩
    else .ok ⟨pid, stores, some clearChildTid⟩

/-- What `sys_clone` refuses with `-EINVAL`. -/
def TidArgs.Refused (args : TidArgs) : Prop :=
  args.supported = false ∨ args.parentSettid ∧ args.parentTid = 0 ∨
    (args.childSettid ∨ args.childCleartid) ∧ args.childTid = 0

instance (args : TidArgs) : Decidable args.Refused := inferInstanceAs (Decidable (_ ∨ _))

def sysClone (m : TableMem) (mm : MmStruct) (pid : Nat) (copied : Int) (args : TidArgs) :
    Except Fault Cloned :=
  if args.Refused then .ok ⟨-einval, [], none⟩ else doForkUthreadTids m mm pid copied args

/-- The stores at the exit of the child, whose address space is then `mm`. -/
def exitTid (m : TableMem) (mm : Option MmStruct) (c : Cloned) : Except Fault (List Store) :=
  match c.child with
  | none => .ok []
  | some clearChildTid => clearChildTidUser m mm clearChildTid

/-! ## What the stores may be -/

/-- The addresses of the four bytes. -/
def byteAddr (uaddr i : Nat) : Nat := (uaddr + i) % 2 ^ 64

def Writable (mm : MmStruct) (uaddr : Nat) : Prop := ∀ i < 4, userWrite mm (byteAddr uaddr i) = true

instance (mm : MmStruct) (uaddr : Nat) : Decidable (Writable mm uaddr) :=
  inferInstanceAs (Decidable (∀ _ < _, _))

def Confined (m : TableMem) (mm : MmStruct) (uaddr : Nat) (stores : List Store) : Prop :=
  ∀ s ∈ stores, ∃ i < 4, pgtblLookup riscv64 mm.pgdir m (byteAddr uaddr i) = .ok s.1 ∧
    userWrite mm (byteAddr uaddr i) = true

/-- What is asked of a clone: confined stores, and none with an error where the address is not
writable. -/
def CloneSafe (m : TableMem) (mm : MmStruct) (args : TidArgs) (c : Cloned) : Prop :=
  Confined m mm args.childTid c.stores ∧
    (args.childSettid ∨ args.childCleartid → ¬ Writable mm args.childTid →
      c.stores = [] ∧ c.ret < 0)

/-- What is asked of the exit of the child. -/
def ExitSafe (m : TableMem) (mm : Option MmStruct) (args : TidArgs) (stores : List Store) : Prop :=
  match mm with
  | none => stores = []
  | some mm => Confined m mm args.childTid stores ∧ (¬ Writable mm args.childTid → stores = [])

/-- `pgtbl_lookup` comes to an end, as it does in a page table that is a tree. -/
def Readable (m : TableMem) (root : Nat) : Prop := ∀ va, ∃ pa, pgtblLookup riscv64 root m va = .ok pa

def Mapped (m : TableMem) (root va : Nat) : Prop := pgtblLookup riscv64 root m va ≠ .ok 0

/-! ## The store loop -/

section Loop

variable {m : TableMem} {root : Nat}

/-- The stores are those of the bytes before the first that is not let through or not mapped. -/
theorem storeBytes_spec (allowed : Nat → Bool) (uaddr : Nat) (val : BitVec 32)
    (hr : Readable m root) (is : List Nat) :
    ∃ done stores, storeBytes allowed m root uaddr val is = .ok (done, stores) ∧
      (done = true ↔ ∀ i ∈ is, allowed (byteAddr uaddr i) = true ∧ Mapped m root (byteAddr uaddr i)) ∧
      (∀ s ∈ stores, ∃ i ∈ is, pgtblLookup riscv64 root m (byteAddr uaddr i) = .ok s.1 ∧
        allowed (byteAddr uaddr i) = true) ∧
      (stores = [] ↔ ∀ i ∈ is.head?,
        ¬ (allowed (byteAddr uaddr i) = true ∧ Mapped m root (byteAddr uaddr i))) := by
  induction is with
  | nil => exact ⟨true, [], rfl, by simp, by simp, by simp⟩
  | cons i rest ih =>
    obtain ⟨done, stores, heq, hdone, hstores, -⟩ := ih
    obtain ⟨pa, hpa⟩ := hr (byteAddr uaddr i)
    have hmapped : Mapped m root (byteAddr uaddr i) ↔ pa ≠ 0 := by
      rw [Mapped, hpa]
      simp
    change ∃ done stores, (if allowed (byteAddr uaddr i) = false then _ else _) = _ ∧ _
    by_cases hall : allowed (byteAddr uaddr i) = false
    · rw [if_pos hall]
      refine ⟨false, [], rfl, ?_, by simp, ?_⟩
      · simp [hall]
      · simp [hall]
    · have hall' : allowed (byteAddr uaddr i) = true := by simpa using hall
      rw [if_neg hall]
      change ∃ done stores, (pgtblLookup riscv64 root m (byteAddr uaddr i) >>= _) = _ ∧ _
      rw [hpa]
      by_cases hz : pa = 0
      · subst hz
        refine ⟨false, [], rfl, ?_, by simp, ?_⟩
        · simp [hmapped]
        · simp [hmapped]
      · refine ⟨done, (pa, val.extractLsb' (8 * i) 8) :: stores, ?_, ?_, ?_, ?_⟩
        · change (if pa = 0 then _ else (storeBytes allowed m root uaddr val rest >>= _)) = _
          rw [if_neg hz, heq]
          rfl
        · rw [hdone, forall_mem_cons]
          simp [hall', hmapped, hz]
        · intro s hs
          rcases mem_cons.1 hs with rfl | hs
          · exact ⟨i, mem_cons_self, hpa, hall'⟩
          · obtain ⟨j, hj, hjpa⟩ := hstores s hs
            exact ⟨j, mem_cons_of_mem _ hj, hjpa⟩
        · simp [hall', hmapped, hz]

end Loop

section Calls

variable {m m' : TableMem} {mm : MmStruct} {mm' : Option MmStruct} {args : TidArgs}
  {stores : List Store} {ret : Int} {child : Option Nat}

theorem putUserIntToMm_spec (hr : Readable m mm.pgdir) (hpg : mm.pgdir ≠ 0) (uaddr : Nat)
    (val : BitVec 32) :
    ∃ ret stores, putUserIntToMm m mm uaddr val = .ok (ret, stores) ∧
      (0 ≤ ret ↔ uaddr ≠ 0 ∧ ∀ i < 4, Mapped m mm.pgdir (byteAddr uaddr i)) ∧
      (∀ s ∈ stores, ∃ i < 4, pgtblLookup riscv64 mm.pgdir m (byteAddr uaddr i) = .ok s.1) ∧
      (stores = [] ↔ uaddr = 0 ∨ ¬ Mapped m mm.pgdir (byteAddr uaddr 0)) := by
  rw [putUserIntToMm]
  by_cases hz : uaddr = 0
  · rw [if_pos hz]
    exact ⟨_, _, rfl, by simp [hz, efault], by simp, by simp [hz]⟩
  · rw [if_neg hz, if_neg hpg]
    obtain ⟨done, stores, heq, hdone, hstores, hnil⟩ :=
      storeBytes_spec (fun _ => true) uaddr val hr (List.range 4)
    rw [heq]
    refine ⟨if done then 0 else -efault, stores, rfl, ?_, fun s hs => ?_, ?_⟩
    · have h4 : done = true ↔ ∀ i < 4, Mapped m mm.pgdir (byteAddr uaddr i) := by
        rw [hdone]
        simp
      rw [← h4]
      cases done <;> simp [hz, efault]
    · obtain ⟨i, hi, hpa, -⟩ := hstores s hs
      exact ⟨i, mem_range.1 hi, hpa⟩
    · have hhead : (List.range 4).head? = some 0 := rfl
      rw [hnil, hhead]
      simp [hz]

/-- The exit stores nothing outside writable areas, and nothing for an address that is not writable
unless its first byte is. -/
theorem clearChildTidUser_spec (hr : ∀ mm ∈ mm', Readable m' mm.pgdir) (uaddr : Nat) :
    ∃ stores, clearChildTidUser m' mm' uaddr = .ok stores ∧
      (∀ mm ∈ mm', Confined m' mm uaddr stores) ∧
      (stores ≠ [] ↔ uaddr ≠ 0 ∧ ∃ mm ∈ mm', mm.pgdir ≠ 0 ∧
        userWrite mm (byteAddr uaddr 0) = true ∧ Mapped m' mm.pgdir (byteAddr uaddr 0)) := by
  unfold clearChildTidUser
  by_cases hz : uaddr = 0
  · rw [if_pos hz]
    exact ⟨[], rfl, nofun, by simp [hz]⟩
  rw [if_neg hz]
  cases mm' with
  | none => exact ⟨[], rfl, nofun, by simp⟩
  | some mm =>
    dsimp only
    split <;> rename_i hpg
    · exact ⟨[], rfl, nofun, by simp [hpg]⟩
    · obtain ⟨done, stores, heq, -, hstores, hnil⟩ :=
        storeBytes_spec (userWrite mm) uaddr 0 (hr mm rfl) (List.range 4)
      rw [heq]
      refine ⟨stores, rfl, ?_, ?_⟩
      · intro mm₁ hmm s hs
        cases hmm
        obtain ⟨i, hi, h⟩ := hstores s hs
        exact ⟨i, mem_range.1 hi, h⟩
      · have hhead : (List.range 4).head? = some 0 := rfl
        rw [ne_eq, hnil, hhead]
        simp [hz, hpg]

/-- The exit of a child whose `clear_child_tid` is the address or NULL. -/
theorem exitSafe_iff {uaddr : Nat} (hu : uaddr = args.childTid ∨ uaddr = 0)
    (hconf : ∀ mm ∈ mm', Confined m' mm uaddr stores)
    (hnil : stores ≠ [] ↔ uaddr ≠ 0 ∧ ∃ mm ∈ mm', mm.pgdir ≠ 0 ∧
      userWrite mm (byteAddr uaddr 0) = true ∧ Mapped m' mm.pgdir (byteAddr uaddr 0)) :
    ExitSafe m' mm' args stores ↔ (uaddr ≠ 0 → ∀ mm ∈ mm', mm.pgdir ≠ 0 →
      userWrite mm (byteAddr args.childTid 0) = true →
      Mapped m' mm.pgdir (byteAddr args.childTid 0) → Writable mm args.childTid) := by
  rcases hu with rfl | rfl
  · cases mm' with
    | none =>
      have : stores = [] := by
        by_contra hne
        simpa using (hnil.1 hne).2
      simp [ExitSafe, this]
    | some mm =>
      constructor
      · rintro ⟨-, hsafe⟩ hz mm₁ hmm hpg huw hmap
        by_contra hw
        cases hmm
        exact hnil.2 ⟨hz, mm, rfl, hpg, huw, hmap⟩ (hsafe hw)
      · intro h
        refine ⟨hconf mm rfl, fun hw => ?_⟩
        by_contra hne
        obtain ⟨hz, mm₁, hmm, hpg, huw, hmap⟩ := hnil.1 hne
        cases hmm
        exact hw (h hz mm rfl hpg huw hmap)
  · have hempty : stores = [] := by
      by_contra hne
      exact (hnil.1 hne).1 rfl
    subst hempty
    cases mm' with
    | none => simp [ExitSafe]
    | some mm => exact ⟨fun _ hz => absurd rfl hz, fun _ => ⟨nofun, fun _ => rfl⟩⟩

/-- For a request that is not refused, with the child's address space at the clone and at its exit:

* the first byte of the address to store to is not mapped, or all of it is writable;
* the address only to be cleared is writable at the clone, or the parent's store fails;
* at the exit of a child that was made it is writable, or its first byte is no byte of a writable area. -/
structure TidFine (m : TableMem) (mm : MmStruct) (copied : Int) (m' : TableMem) (mm' : Option MmStruct)
    (args : TidArgs) : Prop where
  set : args.childSettid = true →
    ¬ Mapped m mm.pgdir (byteAddr args.childTid 0) ∨ Writable mm args.childTid
  clear : args.childSettid = false → args.childCleartid = true →
    Writable mm args.childTid ∨ args.parentSettid ∧ copied < 0
  exit : args.childCleartid = true → ¬ (args.parentSettid ∧ copied < 0) →
    (args.childSettid = true → ∀ i < 4, Mapped m mm.pgdir (byteAddr args.childTid i)) →
    ∀ mm ∈ mm', mm.pgdir ≠ 0 → userWrite mm (byteAddr args.childTid 0) = true →
      Mapped m' mm.pgdir (byteAddr args.childTid 0) → Writable mm args.childTid

theorem exitSafe_nil : ExitSafe m' mm' args [] := by
  cases mm' with
  | none => rfl
  | some mm => exact ⟨nofun, fun _ => rfl⟩

theorem cloneSafe_settid (hset : args.childSettid = true) (hneg : stores = [] → ret < 0)
    (hstores : ∀ s ∈ stores, ∃ i < 4,
      pgtblLookup riscv64 mm.pgdir m (byteAddr args.childTid i) = .ok s.1)
    (hnil : stores = [] ↔ ¬ Mapped m mm.pgdir (byteAddr args.childTid 0)) :
    CloneSafe m mm args ⟨ret, stores, child⟩ ↔
      ¬ Mapped m mm.pgdir (byteAddr args.childTid 0) ∨ Writable mm args.childTid := by
  rw [← hnil]
  by_cases hw : Writable mm args.childTid
  · refine iff_of_true ⟨fun s hs => ?_, fun _ hw' => absurd hw hw'⟩ (.inr hw)
    obtain ⟨i, hi, hpa⟩ := hstores s hs
    exact ⟨i, hi, hpa, hw i hi⟩
  · rw [or_iff_left hw]
    constructor
    · exact fun hsafe => (hsafe.2 (.inl hset) hw).1
    · rintro rfl
      exact ⟨nofun, fun _ _ => ⟨rfl, hneg rfl⟩⟩

theorem cloneSafe_cleartid (hset : args.childSettid = false) :
    CloneSafe m mm args ⟨ret, [], child⟩ ↔
      (args.childCleartid = true → Writable mm args.childTid ∨ ret < 0) := by
  have hreq : (args.childSettid ∨ args.childCleartid) ↔ args.childCleartid = true := by simp [hset]
  rw [CloneSafe, hreq]
  constructor
  · exact fun h hclear => or_iff_not_imp_left.2 fun hw => (h.2 hclear hw).2
  · exact fun h => ⟨nofun, fun hclear hw => ⟨rfl, (h hclear).resolve_left hw⟩⟩

end Calls

/-! ## Two requests -/

/-- A page table with one leaf, of 1 GiB. -/
def oneLeaf (k : Nat) : TableMem :=
  ⟨Function.update (fun _ => none) 4096 (some fun i => if i = k then 0x2000001F#64 else 0), 0, 0⟩

theorem readable_oneLeaf (k : Nat) : Readable (oneLeaf k) 4096 := by
  intro va
  have hcb : ∃ res, lookCb riscv64 (oneLeaf k) (4096, riscv64.levelIndex 0 va) 0 va (0, protNone) =
      .ok (oneLeaf k, res, .stop) := by
    have hread (i : Nat) : (oneLeaf k).read (4096, i) = .ok (if i = k then 0x2000001F#64 else 0) := rfl
    rw [lookCb, hread]
    split_ifs
    · exact ⟨_, rfl⟩
    · exact ⟨_, rfl⟩
  obtain ⟨res, hres⟩ := hcb
  refine ⟨res.1, ?_⟩
  have hwalk : walk riscv64 4096 va (lookCb riscv64) (oneLeaf k) (0, protNone) = .ok (0, oneLeaf k, res) := by
    simp only [walk, riscv64, walkFrom] at hres ⊢
    rw [hres]
    rfl
  rw [pgtblLookup, look, hwalk]
  rfl

/-- An address space with one writable page, and a request to store the thread id there and to clear it
at the exit. -/
def pageMm : MmStruct := ⟨4096, ⟨[⟨65536, 69632, protUser ||| protWrite⟩], 0⟩, 0, 0⟩

def pageArgs : TidArgs := ⟨true, false, true, true, 0, 65536⟩

/-- An address space without areas. -/
def bareMm : MmStruct := ⟨4096, ⟨[], 0⟩, 0, 0⟩

end ZzzOs.Sched.Fork
