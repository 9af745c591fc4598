/-
This file models the page tables of `kern/arch/armv7a/mm.c` and the walk of the processor
through them.

The first-level table has an entry for each megabyte. An entry is free, maps the megabyte as a
section, or points to a second-level table with an entry for each page. The tables are arrays
of words; the second-level tables are found by the address that the first-level entry holds,
and `pt_l2_cache` hands out cleared tables that are not in use. A failed assertion ends the
run and is `none` here.

The model of the loop of `map_pages` is given the test for a section, so that the loop that
maps every page by itself is the same loop with another test.
-/

import AIMv6.PageAllocator
import AIMv6.PageTable
import AIMv6.Pool

namespace AIMv6

/-- `VMA_EXEC`. -/
def vmaExec : Nat := 0x01

/-- `VMA_READ`. -/
def vmaRead : Nat := 0x04

/-- `MAP_TYPE_MASK`. -/
def mapTypeMask : Nat := 0x30000

/-- `MAP_PRIV_DEV`. -/
def mapPrivDev : Nat := 0x20000

/-- `MAP_SHARED_DEV`. -/
def mapSharedDev : Nat := 0x30000

namespace Arm

/-- `ARM_SECT_SHIFT`. -/
def sectShift : Nat := 20

/-- `ARM_SECT_SIZE`. -/
def sectSize : Nat := 2 ^ 20

/-- `ARM_PT_L1_TABLE_BASE_MASK`. -/
def l1TableBaseMask : Nat := 0xFFFFFC00

/-- `ARM_PT_L1_SECT_BASE_MASK`. -/
def l1SectBaseMask : Nat := 0xFFF00000

/-- `ARM_PT_L2_PAGE_BASE_MASK`. -/
def l2PageBaseMask : Nat := 0xFFFFF000

/-- `ARM_PT_L1_TYPE_MASK`. -/
def l1TypeMask : Nat := 0x3

/-- `ARM_PT_L1_SECT`. -/
def l1Sect : Nat := 0x2

/-- `ARM_PT_L1_TABLE`. -/
def l1Table : Nat := 0x1

/-- `ARM_PT_L2_PAGE`. -/
def l2Page : Nat := 0x2

/-- `ARM_PT_L2_SIZE`. -/
def l2Size : Nat := 1024

/-- The attributes of a mapping. -/
structure Attributes where
  ap : Nat
  tex : Nat
  c : Nat
  b : Nat
  s : Nat
  xn : Nat
  deriving DecidableEq, Repr

/-- `convert_flags`. -/
def convertFlags (flags : Nat) : Attributes :=
  let ap := if flags &&& vmaWrite ≠ 0 then 0x3 else if flags &&& vmaRead ≠ 0 then 0x2 else 0x1
  let xn := if flags &&& vmaExec ≠ 0 then 0 else 1
  if flags &&& mapTypeMask = mapPrivDev then ⟨ap, 2, 0, 0, 0, xn⟩
  else if flags &&& mapTypeMask = mapSharedDev then ⟨ap, 0, 0, 1, 0, xn⟩
  else ⟨ap, 1, 1, 1, 1, xn⟩

/-- The tables, and the cache of second-level tables. -/
structure Tables where
  l1 : Nat → Nat
  l2 : Nat → Nat → Nat
  cache : Pool

/-- The entry for a section. -/
def sectEntry (paddr : Nat) (attributes : Attributes) : Nat :=
  (l1Sect ||| paddr ||| attributes.s <<< 16 ||| attributes.tex <<< 12 ||| attributes.ap <<< 10 |||
    attributes.xn <<< 4 ||| attributes.c <<< 3 ||| attributes.b <<< 2) % 2 ^ 32

/-- The entry for a page. -/
def pageEntry (paddr : Nat) (attributes : Attributes) : Nat :=
  (l2Page ||| paddr ||| attributes.s <<< 10 ||| attributes.tex <<< 6 ||| attributes.ap <<< 4 |||
    attributes.c <<< 3 ||| attributes.b <<< 2 ||| attributes.xn) % 2 ^ 32

/-- The index of an address in the first-level table. -/
def l1Index (vaddr : Nat) : Nat := vaddr >>> sectShift

/-- The index of an address in a second-level table. -/
def l2Index (vaddr : Nat) : Nat := (vaddr >>> pageShift) &&& 0xFF

/-- The first-level entry points to a second-level table. -/
def isTableEntry (entry : Nat) : Bool := entry &&& l1TypeMask == l1Table

/-- The first-level entry maps a section. -/
def isSectEntry (entry : Nat) : Bool := entry &&& l1TypeMask == l1Sect

/-- The address of the second-level table of an entry. -/
def tableBase (entry : Nat) : Nat := entry &&& l1TableBaseMask

/-- The addresses of second-level tables. -/
def isL2Table (table : Nat) : Bool := isAligned table l2Size && decide (table < 2 ^ 32)

/-- `__arm_unmap_l1`. -/
def unmapL1 (vaddr : Nat) (tables : Tables) : Tables :=
  let entry := tables.l1 (l1Index vaddr)
  let cache :=
    if isTableEntry entry then tables.cache.give (tableBase entry) else tables.cache
  { tables with l1 := Function.update tables.l1 (l1Index vaddr) 0, cache }

/-- `__arm_map_sect`. -/
def mapSect (paddr vaddr flags : Nat) (tables : Tables) : Tables :=
  let tables := unmapL1 vaddr tables
  { tables with
    l1 := Function.update tables.l1 (l1Index vaddr) (sectEntry paddr (convertFlags flags)) }

/-- `__arm_map_table`. -/
def mapTable (vaddr : Nat) (tables : Tables) : Option Tables :=
  if isTableEntry (tables.l1 (l1Index vaddr)) then some tables
  else
    match tables.cache.take isL2Table with
    | (none, _) => none
    | (some l2, cache) =>
      some
        { l1 := Function.update tables.l1 (l1Index vaddr) (l1Table ||| l2)
          l2 := Function.update tables.l2 l2 fun _ => 0
          cache }

/-- The store at the end of `__arm_map_page`. -/
def setPage (paddr vaddr flags : Nat) (tables : Tables) : Tables :=
  let t2 := tableBase (tables.l1 (l1Index vaddr))
  { tables with
    l2 := Function.update tables.l2 t2
      (Function.update (tables.l2 t2) (l2Index vaddr) (pageEntry paddr (convertFlags flags))) }

/-- `__arm_map_page`. -/
def mapPage (paddr vaddr flags : Nat) (tables : Tables) : Option Tables :=
  (mapTable (alignBelow 32 vaddr sectSize) tables).map (setPage paddr vaddr flags)

/-- The test of the loop of `map_pages` for a section. -/
def sectPossible (vaddr paddr size : Nat) : Bool :=
  isAligned vaddr sectSize && isAligned paddr sectSize && decide (sectSize ≤ size)

/-- The loop of `map_pages` with a test for a section; it is allowed one round for each page. -/
def mapLoop (large : Nat → Nat → Nat → Bool) (flags : Nat) :
    Nat → Nat → Nat → Nat → Tables → Option Tables
  | 0, _, _, size, tables => if size = 0 then some tables else none
  | rounds + 1, vaddr, paddr, size, tables =>
    if 0 < size then
      if large vaddr paddr size then
        mapLoop large flags rounds ((vaddr + sectSize) % 2 ^ 32) ((paddr + sectSize) % 2 ^ 64)
          (size - sectSize) (mapSect paddr vaddr flags tables)
      else
        (mapPage paddr vaddr flags tables).bind
          (mapLoop large flags rounds ((vaddr + pageSize) % 2 ^ 32) ((paddr + pageSize) % 2 ^ 64)
            (size - pageSize))
    else some tables

/-- The checks of `map_pages`. -/
def accepts (pgindex vaddr paddr size : Nat) : Bool :=
  decide (pgindex ≠ 0) &&
    (isAligned vaddr pageSize && isAligned paddr pageSize && isAligned size pageSize)

/-- `map_pages`: the value returned and the tables. -/
def mapPages (pgindex vaddr paddr size flags : Nat) (tables : Tables) : Option (Int × Tables) :=
  if accepts pgindex vaddr paddr size then
    (mapLoop sectPossible flags (size / pageSize) vaddr paddr size tables).map fun tables =>
      (0, tables)
  else some (eof, tables)

/-- Mapping every page by itself with `__arm_map_page`. -/
def mapEachPage (vaddr paddr size flags : Nat) (tables : Tables) : Option Tables :=
  mapLoop (fun _ _ _ => false) flags (size / pageSize) vaddr paddr size tables

/-! ### Unmapping -/

/-- `get_mapped`: the physical address and the size. -/
def getMapped (tables : Tables) (vaddr : Nat) : Nat × Nat :=
  let e1 := tables.l1 (l1Index vaddr)
  if isTableEntry e1 then
    (tables.l2 (tableBase e1) (l2Index vaddr) &&& l2PageBaseMask, pageSize)
  else if isSectEntry e1 then (e1 &&& l1SectBaseMask, sectSize)
  else (0, 0)

/-- The loop of `unmap_pages`, with a number of rounds it may take. -/
def unmapLoop (tables : Tables) (size headPaddr : Nat) : Nat → Nat → Nat → Nat → Option Nat
  | 0, _, _, _ => none
  | rounds + 1, vaddr, thisSize, blockSize =>
    if blockSize < size then
      let vaddr := (vaddr + thisSize) % 2 ^ 32
      let (thisPaddr, thisSize) := getMapped tables vaddr
      if thisSize = 0 ∨ thisPaddr ≠ (headPaddr + blockSize) % 2 ^ 64 then some blockSize
      else unmapLoop tables size headPaddr rounds vaddr thisSize ((blockSize + thisSize) % 2 ^ 32)
    else some blockSize

/-- `unmap_pages`: the value returned, what `*paddr` holds then, and the tables. -/
def unmapPages (rounds vaddr size paddr : Nat) (tables : Tables) : Option (Nat × Nat × Tables) :=
  let (thisPaddr, thisSize) := getMapped tables vaddr
  if thisSize = 0 then some (0, paddr, tables)
  else
    (unmapLoop tables size thisPaddr rounds vaddr thisSize thisSize).map fun blockSize =>
      (blockSize, paddr, tables)

/-! ### The walk -/

/-- What the processor finds for an address. -/
structure Translation where
  paddr : Nat
  attributes : Attributes
  deriving DecidableEq, Repr

/-- The fields of a section entry. -/
def sectAttributes (entry : Nat) : Attributes where
  ap := ((entry >>> 15) &&& 1) <<< 2 ||| ((entry >>> 10) &&& 3)
  tex := (entry >>> 12) &&& 7
  c := (entry >>> 3) &&& 1
  b := (entry >>> 2) &&& 1
  s := (entry >>> 16) &&& 1
  xn := (entry >>> 4) &&& 1

/-- The fields of a small page entry. -/
def pageAttributes (entry : Nat) : Attributes where
  ap := ((entry >>> 9) &&& 1) <<< 2 ||| ((entry >>> 4) &&& 3)
  tex := (entry >>> 6) &&& 7
  c := (entry >>> 3) &&& 1
  b := (entry >>> 2) &&& 1
  s := (entry >>> 10) &&& 1
  xn := entry &&& 1

/-- The walk of the processor: a section, or a small page in a second-level table. -/
def walk (tables : Tables) (va : Nat) : Option Translation :=
  let e1 := tables.l1 (l1Index va)
  if isSectEntry e1 then
    some ⟨(e1 &&& l1SectBaseMask) ||| (va &&& 0xFFFFF), sectAttributes e1⟩
  else if isTableEntry e1 then
    let e2 := tables.l2 (tableBase e1) (l2Index va)
    if e2 &&& l2Page ≠ 0 then
      some ⟨(e2 &&& l2PageBaseMask) ||| (va &&& 0xFFF), pageAttributes e2⟩
    else none
  else none

end Arm

end AIMv6
