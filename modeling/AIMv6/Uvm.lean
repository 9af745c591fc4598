/-
This file models the user address spaces of `kern/mm/uvm.c`.

The list of areas of a `struct mm` is the Lean list of its areas from the head on; a position
in it is a splitting of the list, so the entry before the areas behind the split is the last
one in front of it, and the list head when there is none. The code also treats the list head
as if it were an area (`list_entry(&mm->vma_head, struct vma, node)`): what it reads there is
the argument `sentinel`, and what it would do to that memory by freeing it is the outcome
`wild`. An assertion that fails is the outcome `panic`.

`kmalloc` and `alloc_pages` are pools of objects and of pages, and each page of a request
comes with the answers the two give while the page is set up.
-/

import AIMv6.PageAllocator
import AIMv6.PageTable

namespace AIMv6

/-- `EFAULT`. -/
def efault : Int := 14

/-- `struct vma`, with its own address and that of its `struct pages`. -/
structure Vma where
  obj : Nat
  start : Nat
  size : Nat
  flags : Nat
  pagesObj : Nat
  pages : Pages
  deriving DecidableEq, Repr

/-- `struct mm`; its counters are not maintained by the code. -/
structure Mm where
  obj : Nat
  pgindex : Nat
  areas : List Vma
  deriving DecidableEq, Repr

/-- What the code reads when it takes the list head for an area. -/
structure Sentinel where
  start : Nat
  size : Nat
  deriving DecidableEq, Repr

/-- How a call can fail to return. -/
inductive Trap where
  | panic
  | wild
  deriving DecidableEq, Repr

/-- The state outside of one address space. -/
structure World where
  kernel : Kernel
  heap : Pool

/-- The answers of `kmalloc`, `alloc_pages` and `pgalloc` while one page is set up. -/
structure PageAnswers where
  vma : Option Nat
  pages : Option Nat
  frame : Option Nat
  table : Option Nat
  deriving DecidableEq, Repr

namespace World

/-- `kmalloc`, with `none` for `NULL`. -/
def kmalloc (world : World) : Option Nat × World :=
  ((world.heap.take (· ≠ 0)).1, { world with heap := (world.heap.take (· ≠ 0)).2 })

/-- `kfree`. -/
def kfree (obj : Nat) (world : World) : World := { world with heap := world.heap.give obj }

/-- `alloc_pages` for one page. -/
def allocPage (abi : Abi) (world : World) : Option Nat × World :=
  ((Kernel.pgalloc abi world.kernel).1,
    { world with kernel := (Kernel.pgalloc abi world.kernel).2 })

/-- `free_pages` for one page. -/
def freePage (paddr : Nat) (world : World) : World :=
  { world with kernel := world.kernel.pgfree paddr }

/-- The providers are about to give these answers. -/
def ask (answers : PageAnswers) (world : World) : World :=
  { kernel :=
      { world.kernel with
        frames := { world.kernel.frames with answers := [answers.frame, answers.table] } }
    heap := { world.heap with answers := [answers.vma, answers.pages] } }

end World

open World

/-! ### Creating and destroying an address space -/

/-- `mm_new`, with `none` for `NULL`. -/
def mmNew (abi : Abi) (world : World) : Option Mm × World :=
  match world.kmalloc with
  | (none, world) => (none, world)
  | (some obj, world) =>
    match initPgindex abi world.kernel with
    | (none, kernel) => (none, ({ world with kernel } : World).kfree obj)
    | (some pgindex, kernel) => (some ⟨obj, pgindex, []⟩, { world with kernel })

/-- `__unref_and_free_pages`, and the `kfree` both callers make when the pages are gone. -/
def unrefPages (vma : Vma) (world : World) : World :=
  if wrapSub (2 ^ 32) vma.pages.refs 1 = 0 then
    (world.freePage vma.pages.paddr).kfree vma.pagesObj
  else world

/-- `__clean_vma`. -/
def cleanVma (abi : Abi) (pgindex : Nat) (vma : Vma) (world : World) : Except Trap World :=
  if vma.size ≠ vma.pages.size then .error .panic
  else match unmapPages abi pgindex vma.start vma.size world.kernel.junk world.kernel with
    | none => .error .panic
    | some (unmapped, paddr, kernel) =>
      if paddr ≠ vma.pages.paddr then .error .panic
      else if unmapped ≠ vma.size then .error .panic
      else .ok { world with kernel }

/-- The loop of `mm_destroy`. -/
def cleanAll (abi : Abi) (pgindex : Nat) : List Vma → World → Except Trap World
  | [], world => .ok world
  | vma :: rest, world =>
    match cleanVma abi pgindex vma world with
    | .error trap => .error trap
    | .ok world => cleanAll abi pgindex rest ((unrefPages vma world).kfree vma.obj)

/-- `mm_destroy` of an address space that is not `NULL`. -/
def mmDestroy (abi : Abi) (mm : Mm) (world : World) : Except Trap World :=
  match cleanAll abi mm.pgindex mm.areas world with
  | .error trap => .error trap
  | .ok world =>
    .ok (({ world with kernel := destroyPgindex abi mm.pgindex world.kernel } : World).kfree mm.obj)

/-! ### Creating and destroying areas -/

/-- `__find_vma_before`: the areas up to the returned entry and the areas behind it, or `none`
when the request is found to overlap. -/
def findVmaBefore (abi : Abi) (sentinel : Sentinel) (areas : List Vma) (addr size : Nat) :
    Option (List Vma × List Vma) :=
  if areas = [] then some ([], [])
  else
    let below := areas.takeWhile fun vma => vma.start < (addr + size) % abi.modulus
    let above := areas.dropWhile fun vma => vma.start < (addr + size) % abi.modulus
    let prevStart := (below.getLast?.map Vma.start).getD sentinel.start
    let nextSize := (above.head?.map Vma.size).getD sentinel.size
    if addr < (prevStart + nextSize) % abi.modulus then none else some (below, above)

/-- `__unmap_and_free_vma` for a number of pages, on the areas from `vma_start` on: the areas
that are left of them. -/
def unmapAndFreeVma (abi : Abi) (pgindex : Nat) : Nat → List Vma → World →
    Except Trap (List Vma × World)
  | 0, areas, world => .ok (areas, world)
  | _ + 1, [], _ => .error .wild
  | pages + 1, vma :: rest, world =>
    match unmapPages abi pgindex vma.start vma.size 0 world.kernel with
    | none => .error .panic
    | some (unmapped, _, kernel) =>
      if unmapped ≠ pageSize then .error .panic
      else
        unmapAndFreeVma abi pgindex pages rest
          ((unrefPages vma { world with kernel }).kfree vma.obj)

/-- One pass of the loop of `create_uvm`, with the three labels it unwinds through. -/
def createPage (abi : Abi) (pgindex vcur flags : Nat) (world : World) : Except Int Vma × World :=
  match world.kmalloc with
  | (none, world) => (.error (-enomem), world)
  | (some vma, world) =>
    match world.kmalloc with
    | (none, world) => (.error (-enomem), world.kfree vma)
    | (some pagesObj, world) =>
      match world.allocPage abi with
      | (none, world) => (.error (-enomem), (world.kfree pagesObj).kfree vma)
      | (some paddr, world) =>
        match mapPages abi pgindex vcur paddr pageSize flags world.kernel with
        | (retcode, kernel) =>
          if retcode < 0 then
            (.error retcode,
              ((({ world with kernel } : World).freePage paddr).kfree pagesObj).kfree vma)
          else
            (.ok ⟨vma, vcur, pageSize, flags, pagesObj, ⟨paddr, pageSize, 0, 1⟩⟩,
              { world with kernel })

/-- The loop of `create_uvm` over the given number of pages: the code it stops with, the areas
it has added and the state. -/
def createLoop (abi : Abi) (pgindex flags : Nat) (answers : Nat → PageAnswers) :
    Nat → Nat → Nat → List Vma → World → Int × List Vma × World
  | 0, _, _, added, world => (0, added, world)
  | pages + 1, page, vcur, added, world =>
    match createPage abi pgindex vcur flags (world.ask (answers page)) with
    | (.error retcode, world) => (retcode, added, world)
    | (.ok vma, world) =>
      createLoop abi pgindex flags answers pages (page + 1) ((vcur + pageSize) % abi.modulus)
        (added ++ [vma]) world

/-- The areas and the state after `create_uvm` rolls back: `vma_start` is the last area in
front of the ones the call has added. -/
def rollBack (abi : Abi) (pgindex : Nat) (below added above : List Vma) (world : World) :
    Except Trap (List Vma × World) :=
  match below.getLast? with
  | none => if added = [] then .ok (above, world) else .error .wild
  | some vmaStart =>
    match unmapAndFreeVma abi pgindex added.length (vmaStart :: added ++ above) world with
    | .error trap => .error trap
    | .ok (rest, world) => .ok (below.dropLast ++ rest, world)

/-- `create_uvm`. -/
def createUvm (abi : Abi) (sentinel : Sentinel) (answers : Nat → PageAnswers) (mm : Mm)
    (addr len flags : Nat) (world : World) : Except Trap (Int × Mm × World) :=
  if !isAligned len pageSize || !isAligned addr pageSize then .ok (-einval, mm, world)
  else match findVmaBefore abi sentinel mm.areas addr len with
    | none => .ok (-efault, mm, world)
    | some (below, above) =>
      match createLoop abi mm.pgindex flags answers (len / pageSize) 0 addr [] world with
      | (retcode, added, world) =>
        if retcode = 0 then .ok (0, { mm with areas := below ++ added ++ above }, world)
        else match rollBack abi mm.pgindex below added above world with
          | .error trap => .error trap
          | .ok (areas, world) => .ok (retcode, { mm with areas }, world)

/-- The loop of `destroy_uvm` that checks the pages after the first one, on the areas behind
the first one; an area beyond the list head is never reached unless the memory of the list
head looks like the page that is asked for. -/
def checkRange (abi : Abi) (sentinel : Sentinel) (addr : Nat) :
    Nat → Nat → List Vma → Except Trap Bool
  | 0, _, _ => .ok true
  | _ + 1, offset, [] =>
    if sentinel.start ≠ (addr + offset) % abi.modulus then .ok false else .error .wild
  | pages + 1, offset, vma :: rest =>
    if vma.start ≠ (addr + offset) % abi.modulus then .ok false
    else checkRange abi sentinel addr pages (offset + pageSize) rest

/-- `destroy_uvm`. -/
def destroyUvm (abi : Abi) (sentinel : Sentinel) (mm : Mm) (addr len : Nat) (world : World) :
    Except Trap (Int × Mm × World) :=
  if !isAligned len pageSize || !isAligned addr pageSize then .ok (-einval, mm, world)
  else match mm.areas.dropWhile fun vma => vma.start ≠ addr with
    | [] => .ok (-efault, mm, world)
    | vmaStart :: rest =>
      match checkRange abi sentinel addr (len / pageSize - 1) pageSize rest with
      | .error trap => .error trap
      | .ok false => .ok (-efault, mm, world)
      | .ok true =>
        match unmapAndFreeVma abi mm.pgindex (len / pageSize) (vmaStart :: rest) world with
        | .error trap => .error trap
        | .ok (left, world) =>
          .ok (0, { mm with areas := mm.areas.takeWhile (fun vma => vma.start ≠ addr) ++ left },
            world)

end AIMv6
