import ZzzOs.Mm.Vma.Model

/-!
# What an address space under construction holds

`fork` and `exec` both fill a fresh `mm_struct`, and any allocation on the way may fail. What it holds
at a moment is counted here: areas, page-table pages and the frames mapped so far. `mm_destroy` gives
back the first two; the frames are nobody's when it returns.

The answers of the allocators, of `vma_insert` and of `map` are inputs. Pages that the slab allocator
keeps for its caches are not counted.
-/

namespace ZzzOs.Mm

/-- Pages taken from `page_alloc` and objects taken from the slab caches. -/
@[ext]
structure Pool where
  pages : Int
  objs : Int
deriving DecidableEq

/-- What a new `mm_struct` holds besides itself and its `pgtable_t`. -/
structure Holding where
  areas : Int
  tables : Int
  frames : Int
deriving DecidableEq

/-- The pool while an `mm_struct` with its `pgtable_t` holds this. -/
def Pool.hold (p : Pool) (m : Holding) : Pool :=
  ⟨p.pages + m.tables + m.frames, p.objs + 2 + m.areas⟩

/-- `mm_free` destroys the areas, the page tables and the two objects. -/
def Pool.mmFree (p : Pool) (m : Holding) : Pool := ⟨p.pages - m.tables, p.objs - m.areas - 2⟩

theorem Pool.mmFree_hold (p : Pool) (m : Holding) :
    (p.hold m).mmFree m = ⟨p.pages + m.frames, p.objs⟩ := by
  ext <;> simp only [hold, mmFree] <;> omega

/-- The answers `mm_alloc` gets: the object, its `pgtable_t` and the root table. -/
structure MmAlloc where
  mm : Bool
  pgtbl : Bool
  root : Bool
deriving DecidableEq

def MmAlloc.ok (a : MmAlloc) : Bool := a.mm && a.pgtbl && a.root

/-- What `mm_alloc` leaves when it succeeds. -/
def Holding.fresh : Holding := ⟨0, 1, 0⟩

/-- One page of an area: `page_alloc`, what `map` returned and the tables it added, and whether the
contents could be read. -/
structure Fill where
  alloc : Bool
  mapped : Int
  tables : Nat
  read : Bool
deriving DecidableEq

/-- One area: the answers of `vma_add`, of the allocator and of `vma_insert`, how many objects merging
freed, and the pages to fill. -/
structure Area where
  taken : Bool
  obj : Bool
  fits : Bool
  merged : Int
  pages : List Fill
deriving DecidableEq

/-- How far the construction came. -/
inductive Placed where
  | done (m : Holding)
  | failed (ret : Int) (m : Holding)
  | oops
deriving DecidableEq

/-- The page loops of `dup_mm`, `setup_arg_pages` and `elf_map_segment`. A page that cannot be mapped
is freed again; the tables made for it stay. -/
def fillPages : List Fill → Holding → Placed
  | [], m => .done m
  | p :: rest, m =>
    if p.alloc = false then .failed (-enomem) m
    else if p.mapped < 0 then .failed p.mapped { m with tables := m.tables + p.tables }
    else
      let m := { m with tables := m.tables + p.tables, frames := m.frames + 1 }
      if p.read = false then .failed (-1) m else fillPages rest m

/-- An area is created and filled. `dup_mm` tests `vma_clone` with `IS_ERR`; `vma_add` looks whether
the start is taken and then takes the error pointer of `vma_create` for an area. -/
def Area.place (isAdd : Bool) (a : Area) (m : Holding) : Placed :=
  if isAdd && a.taken then .failed (-efault) m
  else if a.obj = false then if isAdd then .oops else .failed (-enomem) m
  else if a.fits = false then .failed (-efault) m
  else fillPages a.pages { m with areas := m.areas + 1 - a.merged }

def placeAreas (isAdd : Bool) : List Area → Holding → Placed
  | [], m => .done m
  | a :: rest, m =>
    match a.place isAdd m with
    | .done m => placeAreas isAdd rest m
    | r => r

/-! ## Which answers let it go through, and which leave no frame behind -/

def Fill.Ok (p : Fill) : Prop := p.alloc = true ∧ 0 ≤ p.mapped ∧ p.read = true

def Area.Ok (isAdd : Bool) (a : Area) : Prop :=
  (isAdd && a.taken) = false ∧ a.obj = true ∧ a.fits = true ∧ ∀ p ∈ a.pages, p.Ok

/-- The first page already cannot be mapped. -/
def StopsFirst : List Fill → Prop
  | [] => False
  | p :: _ => p.alloc = false ∨ p.mapped < 0

/-- The construction stops with an error before a page is mapped. -/
def StopsEarly (isAdd : Bool) : List Area → Prop
  | [] => False
  | a :: rest =>
    if isAdd && a.taken then True
    else if a.obj = false then isAdd = false
    else if a.fits = false then True
    else if a.pages = [] then StopsEarly isAdd rest
    else StopsFirst a.pages

/-- A construction that began with `n` frames: it is done when everything is `ok`, and it has no more
frames than before when there was nothing to map (`none`) or it stopped `early`. -/
def Placed.Meets (isAdd : Bool) (ok none early : Prop) (n : Int) : Placed → Prop
  | .done m => ok ∧ ¬early ∧ n ≤ m.frames ∧ (m.frames = n ↔ none)
  | .failed r m => ¬ok ∧ r < 0 ∧ n ≤ m.frames ∧ (m.frames = n ↔ early)
  | .oops => ¬ok ∧ isAdd = true ∧ ¬early

theorem Placed.Meets.later {isAdd : Bool} {ok ok' none none' early early' : Prop} {n n' : Int}
    {r : Placed} (h : r.Meets isAdd ok none early n) (hlt : n' < n) (hok : ok' ↔ ok)
    (hnone : ¬none') (hearly : ¬early') : r.Meets isAdd ok' none' early' n' := by
  cases r with
  | done m =>
    obtain ⟨hdone, _, hle, _⟩ := h
    exact ⟨hok.2 hdone, hearly, by omega, iff_of_false (by omega) hnone⟩
  | failed r m =>
    obtain ⟨hfail, hr, hle, _⟩ := h
    exact ⟨hok.not.2 hfail, hr, by omega, iff_of_false (by omega) hearly⟩
  | oops => exact ⟨hok.not.2 h.1, h.2.1, hearly⟩

theorem fillPages_meets (isAdd : Bool) (ps : List Fill) (m : Holding) :
    (fillPages ps m).Meets isAdd (∀ p ∈ ps, p.Ok) (ps = []) (StopsFirst ps) m.frames := by
  induction ps generalizing m with
  | nil => simp [fillPages, Placed.Meets, StopsFirst]
  | cons p rest ih =>
    simp only [fillPages, List.forall_mem_cons, StopsFirst, reduceCtorEq]
    split_ifs with halloc hmap hread
    · simp [Placed.Meets, Fill.Ok, halloc, enomem]
    · simp [Placed.Meets, Fill.Ok, hmap]
    · simp [Placed.Meets, Fill.Ok, halloc, hmap, hread]
    · have hok : p.Ok := ⟨by simpa using halloc, Int.not_lt.1 hmap, by simpa using hread⟩
      apply (ih _).later (lt_add_one m.frames) <;> simp [hok, halloc, Int.not_lt.1 hmap]

theorem placeAreas_meets (isAdd : Bool) (as : List Area) (m : Holding) :
    (placeAreas isAdd as m).Meets isAdd (∀ a ∈ as, a.Ok isAdd) (∀ a ∈ as, a.pages = [])
      (StopsEarly isAdd as) m.frames := by
  induction as generalizing m with
  | nil => simp [placeAreas, Placed.Meets, StopsEarly]
  | cons a rest ih =>
    simp only [placeAreas, Area.place, List.forall_mem_cons, StopsEarly]
    split_ifs with htaken hobj hadd hfits hpages
    · simp [Placed.Meets, Area.Ok, htaken, efault]
    · simp [Placed.Meets, Area.Ok, hobj, hadd]
    · simp [Placed.Meets, Area.Ok, hobj, hadd, enomem]
    · simp [Placed.Meets, Area.Ok, hfits, efault]
    · simpa [Area.Ok, hpages, fillPages, htaken, hobj, hfits] using
        ih { m with areas := m.areas + 1 - a.merged }
    · have h := fillPages_meets isAdd a.pages { m with areas := m.areas + 1 - a.merged }
      have hok : a.Ok isAdd ↔ ∀ p ∈ a.pages, p.Ok := by simp [Area.Ok, htaken, hobj, hfits]
      cases hfill : fillPages a.pages { m with areas := m.areas + 1 - a.merged } with
      | done m₁ =>
        rw [hfill] at h
        obtain ⟨hall, hearly, hle, hnone⟩ := h
        apply (ih m₁).later (lt_of_le_of_ne hle fun h => hpages (hnone.1 h.symm))
        · simp [hok.2 hall]
        · simp [hpages]
        · exact hearly
      | failed | oops =>
        rw [hfill] at h
        exact ⟨fun hrest => h.1 (hok.1 hrest.1), h.2⟩

end ZzzOs.Mm
