/-
This file models the MIPS page table of `kern/arch/mips/pgtable.c` for both builds: two
levels when `__LP64__` is unset, four when it is set, with `include/arch/mips/pgtable.h`,
`mmu.h` and `addrspace.h`.

A `pgindex_t *` is the kernel virtual address of the top directory, and every table is one
page of words. The memory is the function from the address of a word to its value; the code
only ever reads and writes words of tables, at multiples of the word size, and clears whole
pages. The page allocator is the pool of physical pages the kernel has in use. What the code
leaves uninitialised is `Kernel.junk`.
-/

import AIMv6.Align
import AIMv6.Pool

namespace AIMv6

/-! ### Constants -/

/-- `ENOENT`, `ENOMEM`, `EEXIST` and `EINVAL` of `errno.h`. -/
def enoent : Int := 2

def enomem : Int := 12

def eexist : Int := 17

def einval : Int := 22

/-- `PTE_LOWMASK` and the mode bits of an entry. -/
def pteLowMask : Nat := 0xfff

def pteCacheable : Nat := 0x600

def pteDirty : Nat := 0x100

def pteValid : Nat := 0x080

def pteGlobal : Nat := 0x040

/-- `PTE_SOFT_SHIFT`: the entry bits below are not for the hardware. -/
def pteSoftShift : Nat := 6

/-- `VMA_WRITE`. -/
def vmaWrite : Nat := 0x02

namespace Abi

/-- `NR_PTENTRIES`. -/
def nrPtentries (abi : Abi) : Nat := 2 ^ (pageShift - abi.wordShift)

/-- `PTXMASK`. -/
def ptxMask (abi : Abi) : Nat := 2 ^ (pageShift - abi.wordShift) - 1

end Abi

/-- `PTXSHIFT`. -/
def ptxShift : Nat := pageShift

/-- `PDXSHIFT` of the 32-bit build. -/
def pdxShift : Nat := ptxShift + pageShift - Abi.ilp32.wordShift

/-- `PMXSHIFT`, `PUXSHIFT` and `PGXSHIFT` of the 64-bit build. -/
def pmxShift : Nat := ptxShift + pageShift - Abi.lp64.wordShift

def puxShift : Nat := pmxShift + pageShift - Abi.lp64.wordShift

def pgxShift : Nat := puxShift + pageShift - Abi.lp64.wordShift

/-- The index a page-table level takes from an address: `PTX` and its siblings. -/
def levelIndex (abi : Abi) (shift va : Nat) : Nat := va >>> shift &&& abi.ptxMask

def ptx (abi : Abi) (va : Nat) : Nat := levelIndex abi ptxShift va

def pdx (va : Nat) : Nat := levelIndex .ilp32 pdxShift va

def pmx (va : Nat) : Nat := levelIndex .lp64 pmxShift va

def pux (va : Nat) : Nat := levelIndex .lp64 puxShift va

def pgx (va : Nat) : Nat := levelIndex .lp64 pgxShift va

/-- `PTE_PADDR`. -/
def ptePaddr (abi : Abi) (pte : Nat) : Nat := pte &&& (abi.modulus - 1 - pteLowMask)

/-! ### Kernel addresses -/

def lowramTop : Nat := 0x10000000

/-- `IO_CAC_BASE`. -/
def ioCacBase : Abi → Nat
  | .ilp32 => 0x80000000
  | .lp64 => 0x9800000000000000

def ioUncacBase : Nat := 0x9000000000000000

def kseg0 : Abi → Nat
  | .ilp32 => 0x80000000
  | .lp64 => 0xffffffff80000000

def kseg1 : Abi → Nat
  | .ilp32 => 0xa0000000
  | .lp64 => 0xffffffffa0000000

def ksseg : Nat := 0xc0000000

def pa2kva : Abi → Nat → Nat
  | .ilp32, x =>
    if x % 2 ^ 32 > lowramTop then (x % 2 ^ 32 - lowramTop + ksseg) % 2 ^ 32
    else (ioCacBase .ilp32 + x % 2 ^ 32) % 2 ^ 32
  | .lp64, x => (ioCacBase .lp64 + x) % 2 ^ 64

def kva2pa (abi : Abi) (a : Nat) : Nat :=
  if a > kseg1 abi then a - kseg1 abi
  else if a > kseg0 abi then a - kseg0 abi
  else match abi with
    | .lp64 =>
      if a > ioCacBase .lp64 then a - ioCacBase .lp64
      else if a > ioUncacBase then a - ioUncacBase
      else 2 ^ 64 - 1
    | .ilp32 => if a > ksseg then a - ksseg + lowramTop else 2 ^ 32 - 1

/-- The physical memory the kernel can address: the low and the high RAM of the 32-bit build,
the 48-bit physical address space of the 64-bit build. -/
def ramTop : Abi → Nat
  | .ilp32 => lowramTop + 0x30000000
  | .lp64 => 2 ^ 48

/-! ### Memory and pages -/

/-- What the page-table code works on. -/
structure Kernel where
  mem : Nat → Nat
  frames : Pool
  junk : Nat

namespace Kernel

/-- The address of `table[index]`. -/
def slot (abi : Abi) (table index : Nat) : Nat := (table + index * abi.wordSize) % abi.modulus

/-- The value of `table[index]`. -/
def word (abi : Abi) (kernel : Kernel) (table index : Nat) : Nat :=
  kernel.mem (slot abi table index) % abi.modulus

/-- The assignment `table[index] = value`. -/
def setWord (abi : Abi) (table index value : Nat) (kernel : Kernel) : Kernel :=
  { kernel with mem := Function.update kernel.mem (slot abi table index) (value % abi.modulus) }

/-- `memset(table, 0, PAGE_SIZE)`. -/
def clearPage (table : Nat) (kernel : Kernel) : Kernel :=
  { kernel with
    mem := fun address =>
      if table ≤ address ∧ address < table + pageSize then 0 else kernel.mem address }

/-- What `alloc_pages` can grant as one page: page-aligned memory the kernel can address. -/
def isFrame (abi : Abi) (paddr : Nat) : Bool :=
  isAligned paddr pageSize && decide (paddr < ramTop abi)

/-- `pgalloc`, with `none` for -1. -/
def pgalloc (abi : Abi) (kernel : Kernel) : Option Nat × Kernel :=
  ((kernel.frames.take (isFrame abi)).1,
    { kernel with frames := (kernel.frames.take (isFrame abi)).2 })

/-- `pgfree`; the page allocator ignores an address that is not page-aligned. -/
def pgfree (paddr : Nat) (kernel : Kernel) : Kernel :=
  if isAligned paddr pageSize then { kernel with frames := kernel.frames.give paddr } else kernel

end Kernel

/-- The fields of `struct pagedesc` that are read outside of `__getpagedesc`; the 32-bit
build has the leaf table and its index only. -/
structure PageDesc where
  pudv : Nat
  pmdv : Nat
  ptev : Nat
  pgx : Nat
  pux : Nat
  pmx : Nat
  ptx : Nat
  deriving DecidableEq, Repr

open Kernel

/-! ### The 32-bit build -/

/-- `__getpagedesc` of the 32-bit build. -/
def getpagedesc32 (pgindex addr : Nat) (create : Bool) (desc : PageDesc) (kernel : Kernel) :
    Int × PageDesc × Kernel :=
  if kernel.word .ilp32 pgindex (pdx addr) ≠ 0 then
    (0, { desc with ptev := kernel.word .ilp32 pgindex (pdx addr), ptx := ptx .ilp32 addr }, kernel)
  else if !create then (-enoent, desc, kernel)
  else match pgalloc .ilp32 kernel with
    | (none, kernel) => (-enomem, desc, kernel)
    | (some paddr, kernel) =>
      (0, { desc with ptev := pa2kva .ilp32 paddr, ptx := ptx .ilp32 addr },
        (kernel.clearPage (pa2kva .ilp32 paddr)).setWord .ilp32 pgindex (pdx addr)
          (pa2kva .ilp32 paddr))

/-- Whether every entry of a table is zero. -/
def tableEmpty (abi : Abi) (kernel : Kernel) (table : Nat) : Bool :=
  (List.range abi.nrPtentries).all fun index => kernel.word abi table index == 0

/-- One pass of the loop of `__free_intermediate_pgtable`. -/
def freeLeafTable (pgindex index : Nat) (kernel : Kernel) : Kernel :=
  if tableEmpty .ilp32 kernel (kernel.word .ilp32 pgindex index) then
    (kernel.pgfree (kva2pa .ilp32 (kernel.word .ilp32 pgindex index))).setWord .ilp32 pgindex
      index 0
  else kernel

/-- `__free_intermediate_pgtable` of the 32-bit build. -/
def freeIntermediate32 (pgindex vaddr size : Nat) (kernel : Kernel) : Kernel :=
  (List.range' (pdx vaddr)
      (pdx (wrapSub (2 ^ 32) ((vaddr + size) % 2 ^ 32) pageSize) + 1 - pdx vaddr)).foldl
    (fun kernel index => freeLeafTable pgindex index kernel) kernel

/-! ### The 64-bit build -/

/-- `__addpgdir`, with `none` for `NULL`. -/
def addpgdir (vpgdir index : Nat) (kernel : Kernel) : Option Nat × Kernel :=
  match pgalloc .lp64 kernel with
  | (none, kernel) => (none, kernel)
  | (some paddr, kernel) =>
    (some (pa2kva .lp64 paddr),
      (kernel.clearPage (pa2kva .lp64 paddr)).setWord .lp64 vpgdir index (pa2kva .lp64 paddr))

/-- `__delpgdir`. -/
def delpgdir (vpgdir index : Nat) (kernel : Kernel) : Kernel :=
  (kernel.pgfree (kva2pa .lp64 (kernel.word .lp64 vpgdir index))).setWord .lp64 vpgdir index 0

/-- `__del_empty_pgdir`: the code gives up at the first entry that is zero. -/
def delEmptyPgdir (vpgdir index : Nat) (kernel : Kernel) : Int × Kernel :=
  if (List.range Abi.lp64.nrPtentries).any fun i =>
      kernel.word .lp64 (kernel.word .lp64 vpgdir index) i == 0 then (1, kernel)
  else (0, delpgdir vpgdir index kernel)

/-- The descent `if (dir[index] == 0 && __addpgdir(dir, index) == NULL) goto nomem`, and the
entry read after it; `none` when the code jumps. -/
def descend (dir index : Nat) (kernel : Kernel) : Option Nat × Kernel :=
  if kernel.word .lp64 dir index = 0 then
    match addpgdir dir index kernel with
    | (none, kernel) => (none, kernel)
    | (some _, kernel) => (some (kernel.word .lp64 dir index), kernel)
  else (some (kernel.word .lp64 dir index), kernel)

/-- The code at the label `nomem`. -/
def nomem (pgd pud pmd : Nat) (desc : PageDesc) (kernel : Kernel) : Int × PageDesc × Kernel :=
  (-enomem, desc, (delEmptyPgdir pgd desc.pgx
      (delEmptyPgdir pud desc.pux (delEmptyPgdir pmd desc.pmx kernel).2).2).2)

/-- The lookup of `__getpagedesc` with `create` unset. -/
def findpagedesc64 (pgindex : Nat) (desc : PageDesc) (kernel : Kernel) : Int × PageDesc :=
  let pud := kernel.word .lp64 pgindex desc.pgx
  if pud = 0 then (-enoent, { desc with pudv := pud })
  else
    let pmd := kernel.word .lp64 pud desc.pux
    if pmd = 0 then (-enoent, { desc with pudv := pud, pmdv := pmd })
    else
      let pte := kernel.word .lp64 pmd desc.pmx
      if pte = 0 then (-enoent, { desc with pudv := pud, pmdv := pmd, ptev := pte })
      else (0, { desc with pudv := pud, pmdv := pmd, ptev := pte })

/-- `__getpagedesc` of the 64-bit build. -/
def getpagedesc64 (pgindex addr : Nat) (create : Bool) (desc : PageDesc) (kernel : Kernel) :
    Int × PageDesc × Kernel :=
  let desc :=
    { desc with pgx := pgx addr, pux := pux addr, pmx := pmx addr, ptx := ptx .lp64 addr }
  if !create then
    ((findpagedesc64 pgindex desc kernel).1, (findpagedesc64 pgindex desc kernel).2, kernel)
  else match descend pgindex (pgx addr) kernel with
    | (none, kernel) => nomem pgindex kernel.junk kernel.junk desc kernel
    | (some pud, kernel) =>
      match descend pud (pux addr) kernel with
      | (none, kernel) => nomem pgindex pud kernel.junk { desc with pudv := pud } kernel
      | (some pmd, kernel) =>
        match descend pmd (pmx addr) kernel with
        | (none, kernel) => nomem pgindex pud pmd { desc with pudv := pud, pmdv := pmd } kernel
        | (some pte, kernel) =>
          (0, { desc with pudv := pud, pmdv := pmd, ptev := pte }, kernel)

/-- One pass of the loop of `__free_intermediate_pgtable`; `desc` is the variable `pd`, which
keeps what an earlier pass stored when the lookup stops short. -/
def freeTables (pgindex addr : Nat) (desc : PageDesc) (kernel : Kernel) : PageDesc × Kernel :=
  let desc := (getpagedesc64 pgindex addr false desc kernel).2.1
  match delEmptyPgdir desc.pmdv desc.pmx kernel with
  | (1, kernel) => (desc, kernel)
  | (_, kernel) =>
    match delEmptyPgdir desc.pudv desc.pux kernel with
    | (1, kernel) => (desc, kernel)
    | (_, kernel) => (desc, (delEmptyPgdir pgindex desc.pgx kernel).2)

/-- `__free_intermediate_pgtable` of the 64-bit build. -/
def freeIntermediate64 (pgindex vaddr size : Nat) (kernel : Kernel) : Kernel :=
  ((List.range (size / pageSize)).foldl (fun state page =>
      freeTables pgindex ((vaddr + page * pageSize) % 2 ^ 64) state.1 state.2)
    (⟨kernel.junk, kernel.junk, kernel.junk, 0, 0, 0, 0⟩, kernel)).2

/-! ### Mapping and unmapping -/

def getpagedesc : Abi → Nat → Nat → Bool → PageDesc → Kernel → Int × PageDesc × Kernel
  | .ilp32 => getpagedesc32
  | .lp64 => getpagedesc64

def freeIntermediate : Abi → Nat → Nat → Nat → Kernel → Kernel
  | .ilp32 => freeIntermediate32
  | .lp64 => freeIntermediate64

/-- A `struct pagedesc` on the stack before anything is stored in it. -/
def Kernel.freshDesc (kernel : Kernel) : PageDesc :=
  ⟨kernel.junk, kernel.junk, kernel.junk, kernel.junk, kernel.junk, kernel.junk, kernel.junk⟩

/-- `init_pgindex`, with `none` for `NULL`. -/
def initPgindex (abi : Abi) (kernel : Kernel) : Option Nat × Kernel :=
  match pgalloc abi kernel with
  | (none, kernel) => (none, kernel)
  | (some paddr, kernel) => (some (pa2kva abi paddr), kernel.clearPage (pa2kva abi paddr))

/-- `destroy_pgindex`. -/
def destroyPgindex (abi : Abi) (pgindex : Nat) (kernel : Kernel) : Kernel :=
  kernel.pgfree (kva2pa abi pgindex)

/-- `__mach_pgtable_perm` of `mach-generic`. -/
def machPgtablePerm (_vmaFlags : Nat) : Nat := 0

/-- `__pgtable_perm`. -/
def pgtablePerm (vmaFlags : Nat) : Nat :=
  pteValid ||| pteGlobal ||| pteCacheable |||
    (if vmaFlags &&& vmaWrite ≠ 0 then pteDirty else 0) ||| machPgtablePerm vmaFlags

/-- The first pass of `map_pages` over the given number of pages: the code it stops with, the
address it stopped at, `pd` and the kernel. -/
def mapFirst (abi : Abi) (pgindex : Nat) :
    Nat → Nat → PageDesc → Kernel → Int × Nat × PageDesc × Kernel
  | 0, vcur, desc, kernel => (0, vcur, desc, kernel)
  | pages + 1, vcur, desc, kernel =>
    match getpagedesc abi pgindex vcur true desc kernel with
    | (retcode, desc, kernel) =>
      if retcode = -enomem then (retcode, vcur, desc, kernel)
      else if kernel.word abi desc.ptev desc.ptx ≠ 0 then (-eexist, vcur, desc, kernel)
      else mapFirst abi pgindex pages ((vcur + pageSize) % abi.modulus) desc kernel

/-- The second pass of `map_pages`. -/
def mapSecond (abi : Abi) (pgindex perm : Nat) : Nat → Nat → Nat → PageDesc → Kernel → Kernel
  | 0, _, _, _, kernel => kernel
  | pages + 1, pcur, vcur, desc, kernel =>
    match getpagedesc abi pgindex vcur false desc kernel with
    | (_, desc, kernel) =>
      mapSecond abi pgindex perm pages (pcur + pageSize) ((vcur + pageSize) % abi.modulus) desc
        (kernel.setWord abi desc.ptev desc.ptx (pcur ||| perm))

/-- `map_pages`; `addr_t` has 64 bits in both builds. -/
def mapPages (abi : Abi) (pgindex vaddr paddr size flags : Nat) (kernel : Kernel) : Int × Kernel :=
  if !isAligned paddr pageSize || !isAligned size pageSize || !isAligned vaddr pageSize then
    (-einval, kernel)
  else
    let pages := ((paddr + size) % 2 ^ 64 - paddr) / pageSize
    match mapFirst abi pgindex pages vaddr kernel.freshDesc kernel with
    | (retcode, vcur, desc, kernel) =>
      if retcode = 0 then
        (0, mapSecond abi pgindex (pgtablePerm flags) pages paddr vaddr desc kernel)
      else (retcode, freeIntermediate abi pgindex vaddr (wrapSub abi.modulus vcur vaddr) kernel)

/-- The loop of `unmap_pages` over at most the given number of pages: the bytes unmapped, the
physical address stored in `*paddr` and the kernel; `none` is `panic`. -/
def unmapLoop (abi : Abi) (pgindex : Nat) :
    Nat → Nat → Nat → Nat → Nat → PageDesc → Kernel → Option (Nat × Nat × Kernel)
  | 0, _, unmapped, _, paddr, _, kernel => some (unmapped, paddr, kernel)
  | pages + 1, vcur, unmapped, pcur, paddr, desc, kernel =>
    match getpagedesc abi pgindex vcur false desc kernel with
    | (retcode, desc, kernel) =>
      if retcode < 0 then none
      else
        let entry := kernel.word abi desc.ptev desc.ptx
        let cleared := kernel.setWord abi desc.ptev desc.ptx 0
        let next := (vcur + pageSize) % abi.modulus
        if unmapped = 0 then
          unmapLoop abi pgindex pages next pageSize (ptePaddr abi entry + pageSize)
            (ptePaddr abi entry) desc cleared
        else if entry ≠ pcur then some (unmapped, paddr, kernel)
        else unmapLoop abi pgindex pages next (unmapped + pageSize) (pcur + pageSize) paddr desc
          cleared

/-- `unmap_pages`: the bytes unmapped, `*paddr` (unchanged when the range is empty) and the
kernel. -/
def unmapPages (abi : Abi) (pgindex vaddr size paddr : Nat) (kernel : Kernel) :
    Option (Nat × Nat × Kernel) :=
  match unmapLoop abi pgindex (((vaddr + size) % abi.modulus - vaddr + (pageSize - 1)) / pageSize)
      vaddr 0 0 paddr kernel.freshDesc kernel with
  | none => none
  | some (unmapped, paddr, kernel) =>
    some (unmapped, paddr, freeIntermediate abi pgindex vaddr unmapped kernel)

end AIMv6
