import SpuriOS.User

/-! # Page directories and page tables (`kernel/mm.c`) -/

namespace SpuriOS

/-- `mm_page`. Bit 1 is `MM_ATTR_RW` in an entry that is present and `PAGE_REQUESTED` in one that
is not. `MM_ATTR_A` and `MM_ATTR_D` are set by the processor. The attributes that neither it nor a
function sets are left out. -/
structure MmPage where
  p : Bool
  rw : Bool
  us : Bool
  accessed : Bool
  dirty : Bool
  shared : Bool
  cor : Bool
  base : Nat
  deriving DecidableEq

/-- The word 0. -/
def MmPage.zero : MmPage := ⟨false, false, false, false, false, false, false, 0⟩

/-- An entry without the marks of the processor. -/
def MmPage.unmarked (e : MmPage) : MmPage := { e with accessed := false, dirty := false }

theorem MmPage.of_unmarked {e e' : MmPage} (h : e.unmarked = e'.unmarked) :
    e.p = e'.p ∧ e.rw = e'.rw ∧ e.shared = e'.shared ∧ e.base = e'.base := by
  obtain ⟨hp, hrw, -, -, -, hshared, -, hbase⟩ := MmPage.mk.injEq .. ▸ h
  exact ⟨hp, hrw, hshared, hbase⟩

/-- A page directory with its tables: `pde i` is the base of page table `i` if it is present, and
`pte n` the entry of page `n`. -/
structure PageDir where
  pde : Nat → Option Nat
  pte : Nat → MmPage

/-- `PD_ENTRY_FOR`. -/
def pdEntryFor (page : Nat) : Nat := page / 1024

def mmPtEntryFor (page : Nat) (dir : PageDir) : Option MmPage :=
  (dir.pde (pdEntryFor page)).map fun _ => dir.pte page

/-- `PL_KERNEL` and `PL_USER`. -/
inductive Privilege where
  | kernel
  | user
  deriving DecidableEq

def mmPlOfVaddr (vaddr : Nat) (dir : PageDir) : Privilege :=
  match mmPtEntryFor (vaddr / pageSize) dir with
  | none => .kernel
  | some entry => if entry.us ∨ (¬entry.p ∧ entry.rw) then .user else .kernel

/-- The memory of a process with these page tables. Addresses wrap around. -/
def PageDir.userMem (dir : PageDir) (byte : Nat → Byte) : UserMem where
  byte := byte
  isUser vaddr := mmPlOfVaddr (Word32.wrap vaddr) dir = .user

end SpuriOS
