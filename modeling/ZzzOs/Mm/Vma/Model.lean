import ZzzOs.Lib.Spans
import ZzzOs.Mm.Pgtbl.Model

/-!
# Virtual memory areas

`mm/vma.c`: the list of an address space's areas, in the order of the list nodes. Nodes come from
`kmalloc`; `grant` gives the outcome of each request. `vma_add` tests the new node against NULL
only, so without memory it writes through an error pointer; it then has no result.
-/

namespace ZzzOs.Mm

open Lib

def enomem : Int := 12
def efault : Int := 14

structure Vma where
  start : Nat
  fin : Nat
  flags : Pgprot
deriving DecidableEq

/-- The areas of an address space, and the number of nodes asked for so far. -/
structure VmaList where
  list : List Vma
  requests : Nat

namespace Vma

def spans : Spans Vma Pgprot := ⟨start, fin, flags⟩

/-- `vma_find`; an area without flags is passed over. -/
def find (l : List Vma) (va : Nat) : Option Vma :=
  l.find? fun v => decide (v.start ≤ va) && decide (va < v.fin) && v.flags != 0

/-- `vma_merge` of neighbours. -/
def merge (v w : Vma) : Option Vma :=
  if v.fin ≠ w.start ∨ v.flags ≠ w.flags then none else some { v with fin := w.fin }

/-- The loop of `vma_insert`: the areas before and after the new one, unless they meet. -/
def place (new : Vma) : List Vma → Option (List Vma × List Vma)
  | [] => some ([], [])
  | pos :: rest =>
    if new.fin ≤ pos.start then some ([], pos :: rest)
    else if new.start < pos.fin then none
    else (place new rest).map fun (before, after) => (pos :: before, after)

/-- The merge with the area before. -/
def mergePrev (before : List Vma) (new : Vma) : List Vma × Vma :=
  match before.getLast? with
  | none => (before, new)
  | some prev =>
    match merge prev new with
    | none => (before, new)
    | some v => (before.dropLast, v)

/-- The merge with the area after. -/
def mergeNext (new : Vma) : List Vma → List Vma
  | [] => [new]
  | next :: rest =>
    match merge new next with
    | none => new :: next :: rest
    | some v => v :: rest

def insert (l : List Vma) (new : Vma) : Int × List Vma :=
  match place new l with
  | none => (-efault, l)
  | some (before, after) =>
    let (before, new) := mergePrev before new
    (0, before ++ mergeNext new after)

/-- `vma_merge_all` from the area `curr` on. -/
def mergeFrom (curr : Vma) : List Vma → List Vma
  | [] => [curr]
  | next :: rest =>
    match merge curr next with
    | some v => mergeFrom v rest
    | none => curr :: mergeFrom next rest

def mergeAll : List Vma → List Vma
  | [] => []
  | v :: rest => mergeFrom v rest

/-- The loop of `vma_range_is_mapped`. -/
def mappedFrom (fin : Nat) : Nat → List Vma → Bool
  | _, [] => false
  | cursor, v :: rest =>
    if v.fin ≤ cursor then mappedFrom fin cursor rest
    else if cursor < v.start then false
    else if fin ≤ v.fin then true
    else mappedFrom fin v.fin rest

def rangeIsMapped (l : List Vma) (start fin : Nat) : Bool :=
  if fin ≤ start then false else mappedFrom fin start l

/-- The last loop of `vma_delete`. -/
def removeRange (start fin : Nat) : List Vma → List Vma
  | [] => []
  | v :: rest =>
    if v.fin ≤ start then v :: removeRange start fin rest
    else if fin ≤ v.start then v :: rest
    else removeRange start fin rest

/-- The loop of `vma_protect` that sets the flags. -/
def setFlags (start fin : Nat) (flags : Pgprot) : List Vma → List Vma
  | [] => []
  | v :: rest =>
    if v.fin ≤ start then v :: setFlags start fin flags rest
    else if fin ≤ v.start then v :: rest
    else { v with flags := flags } :: setFlags start fin flags rest

end Vma

namespace VmaList

open Vma

variable (grant : Nat → Bool)

/-- `vma_create`, which takes a node from `kmalloc`. -/
def create (s : VmaList) (start fin : Nat) (flags : Pgprot) : Option Vma × VmaList :=
  (if grant s.requests then some ⟨start, fin, flags⟩ else none,
    { s with requests := s.requests + 1 })

/-- `vma_split` of the area between `before` and `rest`; `false` is the error -ENOMEM. -/
def split (s : VmaList) (before : List Vma) (v : Vma) (rest : List Vma) (addr : Nat) :
    Bool × VmaList :=
  if addr ≤ v.start ∨ v.fin ≤ addr then (true, s)
  else
    match s.create grant addr v.fin v.flags with
    | (none, s) => (false, s)
    | (some new, s) => (true, { s with list := before ++ { v with fin := addr } :: new :: rest })

/-- The first loop of `vma_delete` and `vma_protect`, which splits at `start`; `before` has been
passed. -/
def splitStart (s : VmaList) (start fin : Nat) (before : List Vma) : List Vma → Bool × VmaList
  | [] => (true, s)
  | v :: rest =>
    if v.fin ≤ start then splitStart s start fin (before ++ [v]) rest
    else if fin ≤ v.start then (true, s)
    else if v.start < start then s.split grant before v rest start
    else (true, s)

/-- The second loop, which splits at `fin`. -/
def splitEnd (s : VmaList) (fin : Nat) (before : List Vma) : List Vma → Bool × VmaList
  | [] => (true, s)
  | v :: rest =>
    if v.fin ≤ fin then splitEnd s fin (before ++ [v]) rest
    else if v.start < fin then s.split grant before v rest fin
    else (true, s)

/-- Both loops. -/
def splitRange (s : VmaList) (start fin : Nat) : Bool × VmaList :=
  match s.splitStart grant start fin [] s.list with
  | (false, s) => (false, s)
  | (true, s) => s.splitEnd grant fin [] s.list

/-- `vma_add`. -/
def add (s : VmaList) (start len : Nat) (flags : Pgprot) : Option (Int × VmaList) :=
  if len = 0 then some (-einval, s)
  else if (find s.list start).isSome then some (-efault, s)
  else
    match s.create grant start ((start + len) % 2 ^ 64) flags with
    | (none, _) => none
    | (some new, s) =>
      let (ret, list) := insert s.list new
      some (ret, { s with list := list })

/-- `vma_delete`. -/
def delete (s : VmaList) (start len : Nat) : Int × VmaList :=
  let fin := (start + len) % 2 ^ 64
  if len = 0 ∨ fin < start then (-einval, s)
  else
    match s.splitRange grant start fin with
    | (false, s) => (-enomem, s)
    | (true, s) => (0, { s with list := removeRange start fin s.list })

/-- `vma_protect`. -/
def protect (s : VmaList) (start len : Nat) (flags : Pgprot) : Int × VmaList :=
  let fin := (start + len) % 2 ^ 64
  if len = 0 ∨ fin < start then (-einval, s)
  else if rangeIsMapped s.list start fin = false then (-enomem, s)
  else
    match s.splitRange grant start fin with
    | (false, s) => (-enomem, s)
    | (true, s) => (0, { s with list := mergeAll (setFlags start fin flags s.list) })

end VmaList

end ZzzOs.Mm
