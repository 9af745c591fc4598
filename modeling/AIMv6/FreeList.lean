/-
This file models the free-list allocator of `kern/mm/vmm/flff.c`, the provider behind
`kmalloc` and `kfree`.

The allocator works in the memory it manages: a block begins with its header, and the blocks
on the free list are linked through their headers. The model keeps that. Its state is the
memory, every header field is the cell at the field's address, and the list operations are
the writes of `include/list.h`. So two headers that overlap share cells, and a header written
outside of the pages that were granted changes what is there.

A loop over the list follows the links, so it is given a number of steps it may take; `none`
is a loop that has not come to its end by then. What `alloc_pages` answers when it is asked is
an argument, and what is passed to `free_pages` is a result.
-/

import AIMv6.PageAllocator
import AIMv6.Ring

namespace AIMv6

/-- `ALLOC_ALIGN`. -/
def allocAlign : Nat := 16

namespace Abi

/-- `sizeof(struct blockhdr)`; the field `size` comes first. -/
def headerSize : Abi → Nat
  | .ilp32 => 32
  | .lp64 => 48

/-- The offset of the field `free` of a header. -/
def freeOffset : Abi → Nat
  | .ilp32 => 4
  | .lp64 => 8

/-- The offset of the field `flags` of a header. -/
def flagsOffset : Abi → Nat
  | .ilp32 => 8
  | .lp64 => 12

/-- The offset of the field `node` of a header. -/
def nodeOffset : Abi → Nat
  | .ilp32 => 12
  | .lp64 => 16

end Abi

namespace FreeList

/-! ### Headers and list nodes -/

/-- `PAYLOAD`. -/
def payload (abi : Abi) (block : Nat) : Nat := block + abi.headerSize

/-- `HEADER`. -/
def header (abi : Abi) (obj : Nat) : Nat := obj - abi.headerSize

/-- `&block->node`. -/
def node (abi : Abi) (block : Nat) : Nat := block + abi.nodeOffset

/-- `list_entry(node, struct blockhdr, node)`. -/
def entry (abi : Abi) (node : Nat) : Nat := node - abi.nodeOffset

/-- The fields `__alloc` and `__free` fill in when they make a block, in their order; the flags
may be read from memory. -/
def makeBlock (abi : Abi) (mem : Memory) (block size : Nat) (flags : Memory → Nat) : Memory :=
  let made := Function.update (Function.update mem block size) (block + abi.freeOffset) 1
  Function.update made (block + abi.flagsOffset) (flags made)

/-- `list_init`. -/
def listInit (abi : Abi) (mem : Memory) (list : Nat) : Memory :=
  Function.update (Function.update mem list list) (list + abi.wordSize) list

/-- `list_add_after`. -/
def listAddAfter (abi : Abi) (mem : Memory) (new list : Nat) : Memory :=
  Ring.insert abi.wordSize mem new list (mem list)

/-- `list_add_before`. -/
def listAddBefore (abi : Abi) (mem : Memory) (new list : Nat) : Memory :=
  Ring.insert abi.wordSize mem new (mem (list + abi.wordSize)) list

/-- `list_del`. -/
def listDel (abi : Abi) (mem : Memory) (entry : Nat) : Memory := Ring.remove abi.wordSize mem entry

/-- The loop both functions insert a block with: in front of the first block that is not below
it. -/
def insertInOrder (abi : Abi) (head fuel this : Nat) (mem : Memory) : Option Memory :=
  match Ring.seek mem head (fun tmp => this ≤ entry abi tmp) fuel (mem head) with
  | none => none
  | some tmp => some (listAddBefore abi mem (node abi this) tmp)

/-! ### `__alloc` -/

/-- What a call of `__alloc` does: the pointer it returns, with `none` for `NULL`, the memory it
leaves, and the pages it asks for, if it does. -/
structure Allocated where
  obj : Option Nat
  mem : Memory
  asked : Option Pages

/-- The size of the block for a request, after rounding. -/
def allocSize (abi : Abi) (size : Nat) : Nat :=
  (alignAbove abi.bits size allocAlign + abi.headerSize) % abi.modulus

/-- The size asked of `alloc_pages` for a request. -/
def pagesSize (abi : Abi) (size : Nat) : Nat :=
  alignAbove abi.bits (alignAbove abi.bits size allocAlign) pageSize

/-- "found a fit, so we cut it down". The size and the pointer are computed in a machine word. -/
def cutDown (abi : Abi) (this allocsize : Nat) (mem : Memory) : Memory :=
  let newsize := wrapSub abi.modulus (mem this) allocsize
  let newblock := (this + allocsize) % abi.modulus
  let cut :=
    if abi.headerSize + allocAlign ≤ newsize then
      let made := makeBlock abi mem newblock newsize fun mem => mem (this + abi.flagsOffset)
      listAddAfter abi (Function.update made this allocsize) (node abi newblock) (node abi this)
    else mem
  listDel abi (Function.update cut (this + abi.freeOffset) 0) (node abi this)

/-- The part of `__alloc` that makes a block out of new pages, adds it to the list and cuts it
down: the pointer returned and the memory. -/
def takePages (abi : Abi) (kva : Nat → Nat) (head fuel size flags paddr : Nat) (mem : Memory) :
    Option (Nat × Memory) :=
  match insertInOrder abi head fuel (kva paddr)
      (makeBlock abi mem (kva paddr) (pagesSize abi size) fun _ => flags) with
  | none => none
  | some mem => some (payload abi (kva paddr), cutDown abi (kva paddr) (allocSize abi size) mem)

/-- `__alloc`, with `kva` for `pa2kva` and the answer of `alloc_pages`: a physical address, or
`none` for `EOF`. -/
def alloc (abi : Abi) (kva : Nat → Nat) (head fuel size flags : Nat) (answer : Option Nat)
    (mem : Memory) : Option Allocated :=
  match Ring.seek mem head (fun this => allocSize abi size ≤ mem (entry abi this)) fuel
      (mem head) with
  | none => none
  | some found =>
    if found = head then
      let pages : Pages := { paddr := 0, size := pagesSize abi size, flags }
      match answer with
      | none => some ⟨none, mem, some pages⟩
      | some paddr =>
        (takePages abi kva head fuel size flags paddr mem).map fun result =>
          ⟨some result.1, result.2, some pages⟩
    else
      let this := entry abi found
      some ⟨some (payload abi this), cutDown abi this (allocSize abi size) mem, none⟩

/-! ### `__free` -/

/-- "merge downwards": the block that `this` is afterwards, and the memory. -/
def mergeDown (abi : Abi) (head this : Nat) (mem : Memory) : Nat × Memory :=
  let prev := mem (node abi this + abi.wordSize)
  let tmp := entry abi prev
  if prev ≠ head ∧ (tmp + mem tmp) % abi.modulus = this then
    (tmp, listDel abi (Function.update mem tmp ((mem tmp + mem this) % abi.modulus))
      (node abi this))
  else (this, mem)

/-- "merge upwards". -/
def mergeUp (abi : Abi) (head this : Nat) (mem : Memory) : Memory :=
  let next := mem (node abi this)
  let tmp := entry abi next
  if next ≠ head ∧ (this + mem this) % abi.modulus = tmp then
    listDel abi (Function.update mem this ((mem this + mem tmp) % abi.modulus)) (node abi tmp)
  else mem

/-- "return pages": what is passed to `free_pages`, and the memory. -/
def returnPages (abi : Abi) (this : Nat) (mem : Memory) : Option Pages × Memory :=
  let limit := (this + mem this) % abi.modulus
  let firstBorder := alignAbove abi.bits this pageSize
  let lastBorder := alignBelow abi.bits limit pageSize
  if firstBorder < lastBorder then
    let pages : Pages :=
      { paddr := firstBorder, size := lastBorder - firstBorder,
        flags := mem (this + abi.flagsOffset) }
    let upper :=
      if lastBorder < limit then
        let made := makeBlock abi mem lastBorder (limit - lastBorder) fun mem =>
          mem (this + abi.flagsOffset)
        listAddAfter abi made (node abi lastBorder) (node abi this)
      else mem
    let lower :=
      if this < firstBorder then Function.update upper this (firstBorder - this)
      else listDel abi upper (node abi this)
    (some pages, lower)
  else (none, mem)

/-- `__free`. -/
def free (abi : Abi) (head fuel obj : Nat) (mem : Memory) : Option (Option Pages × Memory) :=
  let this := header abi obj
  match insertInOrder abi head fuel this (Function.update mem (this + abi.freeOffset) 1) with
  | none => none
  | some mem =>
    let (this, mem) := mergeDown abi head this mem
    some (returnPages abi this (mergeUp abi head this mem))

/-- `kfree` with this allocator. -/
def kfree (abi : Abi) (head fuel obj : Nat) (mem : Memory) : Option (Option Pages × Memory) :=
  if obj ≠ 0 then free abi head fuel obj mem else some (none, mem)

end FreeList

end AIMv6
