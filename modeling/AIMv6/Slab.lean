/-
This file models the caching allocator of `kern/mm/vmm/slab.c`. A cache keeps
its slabs on three lists by how many of their 32 objects are in use, as recorded
in a four-byte bitmap; list membership is all that `__trim` and `__destroy` look
at. The lists are modelled as lists of slabs, first entry first, so that
`slab->node.prev == &head->empty` says that the slab is the first one of the
empty list. The calls out of the allocator are parameters: whether `kmalloc`
finds room for a `struct slab`, and the address `pa2kva` gives for the pages
`alloc_pages` grants.
-/

import AIMv6.Bitops
import AIMv6.Region

namespace AIMv6

/-- `SLAB_MASK_CHARS`. -/
def slabMaskChars : Nat := 4

/-- `SLAB_ENTRIES`. -/
def slabEntries : Nat := slabMaskChars * 8

/-- `SLAB_MIN_SIZE`. -/
def slabMinSize : Nat := pageSize / slabEntries

/-- `struct slab`. -/
structure Slab where
  vaddr : Nat
  used : Vector Nat slabMaskChars
  deriving DecidableEq, Repr

/-- `struct allocator_cache` with the `struct slab_head` it points to. -/
structure Cache where
  size : Nat
  align : Nat
  createObj : Bool
  slabSize : Nat
  emptySlabs : List Slab
  partialSlabs : List Slab
  fullSlabs : List Slab
  deriving DecidableEq, Repr

namespace Slab

/-- Bit `index` of the bitmap. -/
def bit (slab : Slab) (index : Nat) : Bool := (slab.used.getD (index / 8) 0).testBit (index % 8)

/-- `__is_full`. -/
def isFull (slab : Slab) : Bool := slab.used.all (· == 255)

/-- `__is_empty`. -/
def isEmpty (slab : Slab) : Bool := slab.used.all (· == 0)

/-- `slab->used[i] |= (1 << j)`, stored back into a byte. -/
def setBit (slab : Slab) (i j : Nat) : Slab :=
  { slab with used := slab.used.setIfInBounds i ((slab.used.getD i 0 ||| 1 <<< j) % 256) }

/-- `slab->used[i] &= ~(1 << j)`. -/
def clearBit (slab : Slab) (i j : Nat) : Slab :=
  { slab with used := slab.used.setIfInBounds i (slab.used.getD i 0 &&& (255 - (1 <<< j) % 256)) }

/-- The bytes of a slab whose cache has the given slab size. -/
def region (slabSize : Nat) (slab : Slab) : Region := ⟨slab.vaddr, slabSize⟩

end Slab

namespace Cache

/-- The slab size `__create` computes from the object size and alignment. -/
def slabSizeFor (abi : Abi) (size align : Nat) : Nat :=
  let size := if size < slabMinSize then slabMinSize else size
  let size := alignAbove abi.bits size align
  let size := if size > pageSize / 2 then alignAbove abi.bits size pageSize else size
  alignAbove abi.bits (size * slabEntries % abi.modulus) pageSize

/-- `__create`, once `kmalloc` has given it a `struct slab_head`. -/
def create (abi : Abi) (size align : Nat) (createObj : Bool) : Cache :=
  ⟨size, align, createObj, slabSizeFor abi size align, [], [], []⟩

/-- The loop of `__extend` that constructs the objects of a new slab, as the list of addresses
it passes to `create_obj`. A loop that has run once for every value of `size_t` has come back
to an offset it already had and never ends. -/
def createObjs (abi : Abi) (cache : Cache) (vaddr : Nat) : Nat → Nat → Option (List Nat)
  | 0, _ => none
  | fuel + 1, off =>
    if off < cache.slabSize then
      (createObjs abi cache vaddr fuel ((off + cache.size) % abi.modulus)).map
        (((vaddr + off) % abi.modulus) :: ·)
    else some []

/-- What the outside of the allocator answers during one call: `kmalloc` of a `struct slab`, and
the address of the pages granted. -/
structure Supply where
  node : Bool
  grant : Option Nat
  deriving DecidableEq, Repr

/-- `__extend`: `none` when a constructor loop does not end, `some none` for `EOF`, and otherwise
the cache with the new slab first on the empty list and the objects constructed. -/
def extend (abi : Abi) (cache : Cache) (supply : Supply) : Option (Option (Cache × List Nat)) :=
  if !supply.node then some none
  else
    match supply.grant with
    | none => some none
    | some vaddr =>
      let slab : Slab := ⟨vaddr, Vector.replicate slabMaskChars 0⟩
      let extended := { cache with emptySlabs := slab :: cache.emptySlabs }
      if cache.createObj then
        (createObjs abi cache vaddr abi.modulus 0).map fun made => some (extended, made)
      else some (some (extended, []))

/-- `__trim`: every slab on the empty list goes back to the page allocator. -/
def trim (cache : Cache) : Cache × List Slab := ({ cache with emptySlabs := [] }, cache.emptySlabs)

/-- `__destroy`: the return value, and the slabs given back. -/
def destroy (cache : Cache) : Int × List Slab :=
  if cache.partialSlabs.isEmpty == false then (-1, [])
  else if cache.fullSlabs.isEmpty == false then (-1, [])
  else (0, cache.trim.2)

/-- The `do`-`while` scan of `__alloc`: the byte index and the value of `j` it stops at, or
`none` when it leaves the bitmap. -/
def scan (abi : Abi) : List Nat → Nat → Option (Nat × Nat)
  | [], _ => none
  | byte :: rest, i =>
      if ffz abi byte = 0 then scan abi rest (i + 1) else some (i, ffz abi byte - 1)

/-- The part of `__alloc` after a slab has been chosen, with the slab taken off the lists of
`rest`. A slab that came off the empty list moves to the front of the partial list; one that came
off the front of the partial list stays there. -/
def allocFrom (abi : Abi) (rest : Cache) (slab : Slab) : Option (Nat × Cache) :=
  match scan abi slab.used.toList 0 with
  | none => none
  | some (i, j) =>
    let slab := slab.setBit i j
    let obj := (slab.vaddr + (i * 8 + j) * rest.size) % abi.modulus
    if slab.isFull then some (obj, { rest with fullSlabs := slab :: rest.fullSlabs })
    else some (obj, { rest with partialSlabs := slab :: rest.partialSlabs })

/-- `__alloc`: the object, or `none` inside for `NULL`, the cache and the objects constructed. -/
def alloc (abi : Abi) (cache : Cache) (supply : Supply) : Option (Option Nat × Cache × List Nat) :=
  match cache.partialSlabs with
  | slab :: rest =>
    (allocFrom abi { cache with partialSlabs := rest } slab).map
      fun result => (some result.1, result.2, [])
  | [] =>
    match cache.emptySlabs with
    | slab :: rest =>
      (allocFrom abi { cache with emptySlabs := rest } slab).map
        fun result => (some result.1, result.2, [])
    | [] =>
      match extend abi cache supply with
      | none => none
      | some none => some (none, cache, [])
      | some (some (extended, made)) =>
        match extended.emptySlabs with
        | [] => none
        | slab :: rest =>
          (allocFrom abi { extended with emptySlabs := rest } slab).map
            fun result => (some result.1, result.2, made)

/-- The search loops of `__free`: the slabs before the one whose bytes hold the object, the slab,
and the slabs after it. -/
def findSlab (abi : Abi) (slabSize obj : Nat) : List Slab → Option (List Slab × Slab × List Slab)
  | [] => none
  | slab :: rest =>
    if slab.vaddr ≤ obj ∧ obj < (slab.vaddr + slabSize) % abi.modulus then some ([], slab, rest)
    else (findSlab abi slabSize obj rest).map fun found => (slab :: found.1, found.2)

/-- `int i = (obj - slab->vaddr) / cache->size`. -/
def objIndex (cache : Cache) (slab : Slab) (obj : Nat) : Int :=
  (((obj - slab.vaddr) / cache.size : Nat) : Int).bmod (2 ^ 32)

/-- The bitmap update of `__free`. A byte or bit index outside the bitmap leaves the bitmap as it
is; the store then hits other memory. -/
def release (cache : Cache) (slab : Slab) (obj : Nat) : Slab :=
  let i := cache.objIndex slab obj
  if 0 ≤ i then slab.clearBit (i.toNat / 8) (i.toNat % 8) else slab

/-- `__free`: the return value and the cache. -/
def free (abi : Abi) (cache : Cache) (obj : Nat) : Int × Cache :=
  match findSlab abi cache.slabSize obj cache.fullSlabs with
  | some (before, slab, after) =>
    let slab := cache.release slab obj
    if slab.isEmpty then
      (0, { cache with fullSlabs := before ++ after, emptySlabs := slab :: cache.emptySlabs })
    else if before.isEmpty then
      (0, { cache with fullSlabs := after, partialSlabs := slab :: cache.partialSlabs })
    else (0, { cache with fullSlabs := before ++ slab :: after })
  | none =>
    match findSlab abi cache.slabSize obj cache.partialSlabs with
    | some (before, slab, after) =>
      let slab := cache.release slab obj
      if slab.isEmpty then
        (0, { cache with partialSlabs := before ++ after, emptySlabs := slab :: cache.emptySlabs })
      else (0, { cache with partialSlabs := before ++ slab :: after })
    | none => (-1, cache)

/-- Every slab of the cache. -/
def slabs (cache : Cache) : List Slab := cache.emptySlabs ++ cache.partialSlabs ++ cache.fullSlabs

end Cache

end AIMv6
