import Mathlib.Logic.Function.Basic

/-!
# Page descriptors

`include/mm/page.h`, `include/os/pfn.h` and the descriptor array of `mm/physmem.c`. A
`struct page *` is the number of the frame it describes. Of the descriptor the model keeps
the fields the allocators read or write; `buddy_node` is kept as membership of the free
lists.
-/

namespace ZzzOs.Mm

/-! ## Sizes -/

def pageShift : Nat := 12
def pageSize : Nat := 1 <<< pageShift
def maxCpus : Nat := 16

def physToPfn (pa : Nat) : Nat := pa >>> pageShift
def pfnToPhys (pfn : Nat) : Nat := pfn <<< pageShift

theorem pageSize_eq : pageSize = 4096 := rfl

theorem physToPfn_eq (pa : Nat) : physToPfn pa = pa / 4096 := by
  simp [physToPfn, pageShift, Nat.shiftRight_eq_div_pow]

theorem pfnToPhys_eq (pfn : Nat) : pfnToPhys pfn = pfn * 4096 := by
  simp [pfnToPhys, pageShift, Nat.shiftLeft_eq]

/-! ## Descriptors and their flags -/

def pageBuddyBit : BitVec 32 := 1#32 <<< 0
def pagePcpBit : BitVec 32 := 1#32 <<< 1
def pageReservedBit : BitVec 32 := 1#32 <<< 2

/-- `struct page`; `priv` is its member `private`. -/
structure Page where
  flags : BitVec 32
  refcount : Nat
  mapping : Nat
  index : Nat
  priv : Nat
  order : Nat
  next : Option Nat
  slab : Nat
deriving DecidableEq

namespace Page

def testFlag (p : Page) (flag : BitVec 32) : Bool := p.flags &&& flag != 0
def setFlag (p : Page) (flag : BitVec 32) : Page := { p with flags := p.flags ||| flag }
def clearFlag (p : Page) (flag : BitVec 32) : Page := { p with flags := p.flags &&& ~~~flag }

def pageBuddy (p : Page) : Bool := p.testFlag pageBuddyBit
def setPageBuddy (p : Page) : Page := (p.clearFlag pagePcpBit).setFlag pageBuddyBit
def clearPageBuddy (p : Page) : Page := p.clearFlag pageBuddyBit
def pagePcp (p : Page) : Bool := p.testFlag pagePcpBit
def setPagePcp (p : Page) : Page := (p.clearFlag pageBuddyBit).setFlag pagePcpBit
def clearPagePcp (p : Page) : Page := p.clearFlag pagePcpBit
def pageReserved (p : Page) : Bool := p.testFlag pageReservedBit

theorem testFlag_twoPow (p : Page) (i : Nat) (hi : i < 32) :
    p.testFlag (BitVec.twoPow 32 i) = p.flags.getLsbD i := by
  unfold testFlag
  rw [BitVec.and_twoPow]
  cases h : p.flags.getLsbD i
  · rfl
  · have hne : BitVec.twoPow 32 i ≠ 0#32 := by
      intro e
      have := congrArg (BitVec.getLsbD · i) e
      simp [hi] at this
    simpa using hne

theorem pageBuddy_eq (p : Page) : p.pageBuddy = p.flags.getLsbD 0 :=
  testFlag_twoPow p 0 (by decide)

theorem pagePcp_eq (p : Page) : p.pagePcp = p.flags.getLsbD 1 :=
  testFlag_twoPow p 1 (by decide)

theorem pageReserved_eq (p : Page) : p.pageReserved = p.flags.getLsbD 2 :=
  testFlag_twoPow p 2 (by decide)

theorem flags_zero {p : Page} (h : p.flags = 0#32) :
    p.pageBuddy = false ∧ p.pagePcp = false ∧ p.pageReserved = false := by
  simp [pageBuddy_eq, pagePcp_eq, pageReserved_eq, h]

/-! The flag updates act on their own bits only. -/

section Updates

variable (p : Page)

@[simp] theorem pageBuddy_setPageBuddy : p.setPageBuddy.pageBuddy = true := by
  simp [pageBuddy_eq, setPageBuddy, setFlag, clearFlag, pageBuddyBit]

@[simp] theorem pagePcp_setPageBuddy : p.setPageBuddy.pagePcp = false := by
  simp [pagePcp_eq, setPageBuddy, setFlag, clearFlag, pageBuddyBit, pagePcpBit]

@[simp] theorem pageReserved_setPageBuddy : p.setPageBuddy.pageReserved = p.pageReserved := by
  simp [pageReserved_eq, setPageBuddy, setFlag, clearFlag, pageBuddyBit, pagePcpBit]

@[simp] theorem pageBuddy_clearPageBuddy : p.clearPageBuddy.pageBuddy = false := by
  simp [pageBuddy_eq, clearPageBuddy, clearFlag, pageBuddyBit]

@[simp] theorem pagePcp_clearPageBuddy : p.clearPageBuddy.pagePcp = p.pagePcp := by
  simp [pagePcp_eq, clearPageBuddy, clearFlag, pageBuddyBit]

@[simp] theorem pageReserved_clearPageBuddy : p.clearPageBuddy.pageReserved = p.pageReserved := by
  simp [pageReserved_eq, clearPageBuddy, clearFlag, pageBuddyBit]

@[simp] theorem pageBuddy_setPagePcp : p.setPagePcp.pageBuddy = false := by
  simp [pageBuddy_eq, setPagePcp, setFlag, clearFlag, pageBuddyBit, pagePcpBit]

@[simp] theorem pagePcp_setPagePcp : p.setPagePcp.pagePcp = true := by
  simp [pagePcp_eq, setPagePcp, setFlag, clearFlag, pagePcpBit]

@[simp] theorem pageReserved_setPagePcp : p.setPagePcp.pageReserved = p.pageReserved := by
  simp [pageReserved_eq, setPagePcp, setFlag, clearFlag, pageBuddyBit, pagePcpBit]

@[simp] theorem pageBuddy_clearPagePcp : p.clearPagePcp.pageBuddy = p.pageBuddy := by
  simp [pageBuddy_eq, clearPagePcp, clearFlag, pagePcpBit]

@[simp] theorem pagePcp_clearPagePcp : p.clearPagePcp.pagePcp = false := by
  simp [pagePcp_eq, clearPagePcp, clearFlag, pagePcpBit]

@[simp] theorem pageReserved_clearPagePcp : p.clearPagePcp.pageReserved = p.pageReserved := by
  simp [pageReserved_eq, clearPagePcp, clearFlag, pagePcpBit]

@[simp] theorem order_setPageBuddy : p.setPageBuddy.order = p.order := rfl
@[simp] theorem order_clearPageBuddy : p.clearPageBuddy.order = p.order := rfl
@[simp] theorem next_clearPageBuddy : p.clearPageBuddy.next = p.next := rfl

end Updates

end Page

end ZzzOs.Mm
