/-
This file models the page table of `kern/arch/i386/pgtable.c`, with `include/arch/i386/mmu.h`,
and the walk of the processor through it.

The algorithm is the one of the 32-bit MIPS build, and the memory and the page allocator are
those of its model. The entries are different: an entry of the page directory holds the
physical address of the leaf table with mode bits, and an entry counts when its present bit is
set. The index macros have no mask, so an index can lie outside of the table it is used with.
The code then works on whatever is at that address; the model does the same and records it.
-/

import AIMv6.PageTable

namespace AIMv6

namespace I386

/-! ### Constants -/

/-- `KERN_BASE` of the default configuration. -/
def kernBase : Nat := 0x80000000

def pa2kva (pa : Nat) : Nat := (kernBase + pa) % 2 ^ 32

/-- `kva2pa`, a subtraction of `size_t` values. -/
def kva2pa (kva : Nat) : Nat := (2 ^ 32 - kernBase + kva) % 2 ^ 32

/-- `PTX_SHIFT` and `PDX_SHIFT`. -/
def ptxShift : Nat := pageShift

def pdxShift : Nat := ptxShift + pageShift - 2

/-- `NR_PTENTRIES`. -/
def nrPtentries : Nat := Abi.ilp32.nrPtentries

/-- `PTE_P`, `PTE_R` and `PTE_U`. -/
def pteP : Nat := 0x1

def pteR : Nat := 0x2

def pteU : Nat := 0x4

def mkpte (paddr flags : Nat) : Nat := alignBelow 64 paddr pageSize ||| flags

def ptx (vaddr : Nat) : Nat := vaddr >>> ptxShift

def pdx (vaddr : Nat) : Nat := vaddr >>> pdxShift

/-- `PTE_PADDR`. -/
def ptePaddr (pte : Nat) : Nat := pte &&& (2 ^ 32 - 1 - pteLowMask)

/-- `PTE_FLAGS`. -/
def pteFlags (pte : Nat) : Nat := pte &&& pteLowMask

/-- The test of an entry for `PTE_P`. -/
def present (pte : Nat) : Bool := pte &&& pteP != 0

/-! ### Memory and pages -/

/-- What the page-table code works on, and whether it has used an index outside of a table. -/
structure Machine where
  kernel : Kernel
  outside : Bool

namespace Machine

/-- The use of an index with a table. -/
def access (index : Nat) (machine : Machine) : Machine :=
  { machine with outside := machine.outside || decide (nrPtentries ≤ index) }

/-- The value of `table[index]`. -/
def word (machine : Machine) (table index : Nat) : Nat := machine.kernel.word .ilp32 table index

/-- The assignment `table[index] = value`. -/
def setWord (table index value : Nat) (machine : Machine) : Machine :=
  { machine.access index with kernel := machine.kernel.setWord .ilp32 table index value }

end Machine

/-- What `alloc_pages` can grant as one page: page-aligned memory the kernel can address. -/
def isFrame (paddr : Nat) : Bool := isAligned paddr pageSize && decide (paddr < 2 ^ 32 - kernBase)

namespace Machine

/-- `pgalloc`, with `none` for -1. -/
def pgalloc (machine : Machine) : Option Nat × Machine :=
  ((machine.kernel.frames.take isFrame).1,
    { machine with
      kernel := { machine.kernel with frames := (machine.kernel.frames.take isFrame).2 } })

def pgfree (paddr : Nat) (machine : Machine) : Machine :=
  { machine with kernel := machine.kernel.pgfree paddr }

/-- `memset(table, 0, PAGE_SIZE)`. -/
def clearPage (table : Nat) (machine : Machine) : Machine :=
  { machine with kernel := machine.kernel.clearPage table }

end Machine

/-- The fields of `struct pagedesc` that are read outside of `__getpagedesc`. -/
structure PageDesc where
  ptep : Nat
  ptx : Nat
  deriving DecidableEq, Repr

/-! ### Leaf tables -/

/-- `__getpagedesc`. -/
def getpagedesc (pgindex addr : Nat) (create : Bool) (desc : PageDesc) (machine : Machine) :
    Int × PageDesc × Machine :=
  let pde := machine.word pgindex (pdx addr)
  if present pde then (0, ⟨pa2kva (ptePaddr pde), ptx addr⟩, machine.access (pdx addr))
  else if !create then (-enoent, desc, machine.access (pdx addr))
  else match (machine.access (pdx addr)).pgalloc with
    | (none, machine) => (-enomem, desc, machine)
    | (some paddr, machine) =>
      (0, ⟨pa2kva paddr, ptx addr⟩, (machine.clearPage (pa2kva paddr)).setWord pgindex (pdx addr)
          (mkpte paddr (pteP ||| pteR ||| pteU)))

/-- `init_pgindex`, with `none` for `NULL`. -/
def initPgindex (machine : Machine) : Option Nat × Machine :=
  match machine.pgalloc with
  | (none, machine) => (none, machine)
  | (some paddr, machine) => (some (pa2kva paddr), machine.clearPage (pa2kva paddr))

/-- Whether a table has an entry that is present. -/
def tableUsed (machine : Machine) (table : Nat) : Bool :=
  (List.range nrPtentries).any fun index => present (machine.word table index)

/-- One pass of the loop of `__free_intermediate_pgtable`. -/
def freeLeafTable (pgindex index : Nat) (machine : Machine) : Machine :=
  let pde := machine.word pgindex index
  if tableUsed machine (pa2kva (ptePaddr pde)) then machine.access index
  else (machine.pgfree (kva2pa (ptePaddr pde))).setWord pgindex index (pde &&& (2 ^ 32 - 1 - pteP))

/-- `__free_intermediate_pgtable`. -/
def freeIntermediate (pgindex vaddr size : Nat) (machine : Machine) : Machine :=
  (List.range' (pdx vaddr)
      (pdx (wrapSub (2 ^ 32) ((vaddr + size) % 2 ^ 32) pageSize) + 1 - pdx vaddr)).foldl
    (fun machine index => freeLeafTable pgindex index machine) machine

/-! ### Mapping and unmapping -/

/-- `__pgtable_perm`. -/
def pgtablePerm (vmaFlags : Nat) : Nat :=
  pteP ||| pteU ||| (if vmaFlags &&& vmaWrite ≠ 0 then pteR else 0)

/-- The first pass of `map_pages` over the given number of pages: the code it stops with, the
address it stopped at, `pd` and the machine. -/
def mapFirst (pgindex : Nat) : Nat → Nat → PageDesc → Machine → Int × Nat × PageDesc × Machine
  | 0, vcur, desc, machine => (0, vcur, desc, machine)
  | pages + 1, vcur, desc, machine =>
    match getpagedesc pgindex vcur true desc machine with
    | (retcode, desc, machine) =>
      if retcode = -enomem then (retcode, vcur, desc, machine)
      else if present (machine.word desc.ptep desc.ptx) then
        (-eexist, vcur, desc, machine.access desc.ptx)
      else mapFirst pgindex pages ((vcur + pageSize) % 2 ^ 32) desc (machine.access desc.ptx)

/-- The second pass of `map_pages`. -/
def mapSecond (pgindex perm : Nat) : Nat → Nat → Nat → PageDesc → Machine → Machine
  | 0, _, _, _, machine => machine
  | pages + 1, pcur, vcur, desc, machine =>
    match getpagedesc pgindex vcur false desc machine with
    | (_, desc, machine) =>
      mapSecond pgindex perm pages (pcur + pageSize) ((vcur + pageSize) % 2 ^ 32) desc
        (machine.setWord desc.ptep desc.ptx (pcur ||| perm))

/-- A `struct pagedesc` on the stack before anything is stored in it. -/
def Machine.freshDesc (machine : Machine) : PageDesc := ⟨machine.kernel.junk, machine.kernel.junk⟩

/-- `map_pages`; `addr_t` has 64 bits. -/
def mapPages (pgindex vaddr paddr size flags : Nat) (machine : Machine) : Int × Machine :=
  if !isAligned paddr pageSize || !isAligned size pageSize || !isAligned vaddr pageSize then
    (-einval, machine)
  else
    let pages := ((paddr + size) % 2 ^ 64 - paddr) / pageSize
    match mapFirst pgindex pages vaddr machine.freshDesc machine with
    | (retcode, vcur, desc, machine) =>
      if retcode = 0 then
        (0, mapSecond pgindex (pgtablePerm flags) pages paddr vaddr desc machine)
      else (retcode, freeIntermediate pgindex vaddr (wrapSub (2 ^ 32) vcur vaddr) machine)

/-- The loop of `unmap_pages` over at most the given number of pages: the bytes unmapped, the
physical address stored in `*paddr` and the machine; `none` is `panic`. -/
def unmapLoop (pgindex : Nat) :
    Nat → Nat → Nat → Nat → Nat → PageDesc → Machine → Option (Nat × Nat × Machine)
  | 0, _, unmapped, _, paddr, _, machine => some (unmapped, paddr, machine)
  | pages + 1, vcur, unmapped, pcur, paddr, desc, machine =>
    match getpagedesc pgindex vcur false desc machine with
    | (retcode, desc, machine) =>
      if retcode < 0 then none
      else
        let entry := machine.word desc.ptep desc.ptx
        let cleared := machine.setWord desc.ptep desc.ptx 0
        let next := (vcur + pageSize) % 2 ^ 32
        if unmapped = 0 then
          unmapLoop pgindex pages next pageSize (ptePaddr entry + pageSize) (ptePaddr entry) desc
            cleared
        else if entry ≠ pcur then some (unmapped, paddr, machine.access desc.ptx)
        else unmapLoop pgindex pages next (unmapped + pageSize) (pcur + pageSize) paddr desc cleared

/-- `unmap_pages`: the bytes unmapped, `*paddr` (unchanged when the range is empty) and the
machine. -/
def unmapPages (pgindex vaddr size paddr : Nat) (machine : Machine) :
    Option (Nat × Nat × Machine) :=
  match unmapLoop pgindex (((vaddr + size) % 2 ^ 32 - vaddr + (pageSize - 1)) / pageSize) vaddr 0 0
      paddr ⟨0, 0⟩ machine with
  | none => none
  | some (unmapped, paddr, machine) =>
    some (unmapped, paddr, freeIntermediate pgindex vaddr unmapped machine)

/-! ### The walk -/

/-- What the processor finds for an address: the frame and the mode bits of the entry, or
nothing. The page directory is at the kernel address `pgindex`, and physical memory is read
where the kernel has it. -/
def walk (pgindex : Nat) (kernel : Kernel) (va : Nat) : Option (Nat × Nat) :=
  let pde := kernel.word .ilp32 pgindex (va >>> 22 &&& 0x3ff)
  if present pde then
    let pte := kernel.word .ilp32 (pa2kva (ptePaddr pde)) (va >>> 12 &&& 0x3ff)
    if present pte then some (ptePaddr pte, pteFlags pte) else none
  else none

end I386

end AIMv6
