/-
This file follows `page_allocator_move`, which moves the nodes of the page list from the bootstrap
allocator to the free-list allocator.

The loop walks the list that its own calls of `kmalloc` take pages from. The first call always asks
for a page, because the new allocator has none yet, and the page is cut off the first block, which
is the block under the cursor. When that block is one page large, `alloc_pages` takes it off the
list and passes its node to `kfree`, that is to the new allocator, although the node belongs to the
old one, and the loop goes on with a node that is not on the list. In every other case the list
survives: from the second round on the block in front of the cursor is in a node of the new
allocator, so what `alloc_pages` takes off the list later has been moved already.

The list is taken as `page_allocator_move` finds it in `master_init`: `Handover` is that state.
-/

import AIMv6.MemorySystem

namespace AIMv6

open Region

open List hiding Disjoint Vector
open Nat Set

namespace MemorySystem

open FreeList PageAllocator Ledger

/-! ### The state before the move and after it -/

/-- The object of a node of the page list. -/
def nodeObject (abi : Abi) (node : Nat) : Object := ⟨node, abi.blockSize⟩

/-- Free pages that the heap can be made of: `pa2kva` gives each its own page, apart from some
addresses. -/
structure Usable (heap : Heap) (avoid free : Set Nat) : Prop where
  aligned : ∀ page ∈ free, page % pageSize = 0 → heap.kva page % pageSize = 0
  inside : ∀ page ∈ free, page % pageSize = 0 → heap.kva page + pageSize < heap.abi.modulus
  apart : ∀ page ∈ free, page % pageSize = 0 →
    Disjoint (⟨heap.kva page, pageSize⟩ : Region).bytes avoid
  distinct : ∀ page ∈ free, ∀ other ∈ free, page % pageSize = 0 → other % pageSize = 0 →
    heap.kva page = heap.kva other → page = other

/-- The cells of a list head. -/
def headCells (abi : Abi) (head : Nat) : Set Nat := territory abi head ∅

/-- The state in which `master_init` calls `page_allocator_move`: the nodes of the page list are
objects of the bootstrap allocator, and `simple_allocator_init` has just made the list of the new
allocator. -/
structure Handover (heap : Heap) (bootHead : Nat) (pool : Region) (boot : Usage) (sys : System) :
    Prop where
  isPool : IsPool heap.abi bootHead pool
  below : pool.limit + pageSize ≤ heap.abi.modulus
  reachable : ∃ mem, Reachable heap.abi heap.kva bootHead
    (fun usage call => call.Bootstrap heap.abi bootHead usage)
    (bootstrapped heap.abi bootHead pool mem) boot
  started : sys.mem = listInit heap.abi boot.mem heap.head
  nonempty : sys.pages.blocks ≠ []
  whole : ∀ block ∈ sys.pages.blocks, WholePages block.region
  disjoint : (regions sys.pages.blocks).Pairwise fun first second =>
    Disjoint first.bytes second.bytes
  counter : sys.pages.freeSpace = totalSize (regions sys.pages.blocks)
  small : sys.pages.freeSpace < addrModulus
  nodes : ∀ block ∈ sys.pages.blocks, nodeObject heap.abi block.node ∈ boot.live
  nodup : (sys.pages.blocks.map PageBlock.node).Nodup
  usable : Usable heap (headCells heap.abi heap.head ∪ territory heap.abi bootHead pool.bytes)
    (covered (regions sys.pages.blocks))
  headApart : Disjoint (headCells heap.abi heap.head) (territory heap.abi bootHead pool.bytes)
  log : sys.log = []

/-- The list has survived: its nodes are objects of the new allocator, each old node has been freed
once and only by the old allocator, no block is empty, and what is free is what was free without the
pages that `alloc_pages` has handed out. -/
structure Moved (origin : List PageBlock) (final : System) : Prop where
  owned : ∀ block ∈ final.pages.blocks, block.node ∈ held final.log
  nodup : (final.pages.blocks.map PageBlock.node).Nodup
  freed : (oldFreed final.log).Perm (origin.map PageBlock.node)
  unfreed : ∀ block ∈ origin, Event.kfree block.node ∉ final.log
  nonempty : ∀ block ∈ final.pages.blocks, 0 < block.size
  freeSet : covered (regions final.pages.blocks) =
    covered (regions origin) \ covered (granted final.log)

/-! ### The pages -/

/-- The free regions and the pages that have been granted make up what was free. -/
structure Stock (origin : Set Nat) (list : List Region) (freeSpace : Nat) (pages : List Region) :
    Prop where
  whole : ∀ region ∈ list, WholePages region
  disjoint : list.Pairwise fun first second => Disjoint first.bytes second.bytes
  counter : freeSpace = totalSize list
  small : freeSpace < addrModulus
  single : ∀ page ∈ pages, page.size = pageSize ∧ page.base % pageSize = 0
  cover : covered pages ∪ covered list = origin
  apart : Disjoint (covered pages) (covered list)

/-- What is left of a block without its first page. -/
def shrink (block : PageBlock) : PageBlock :=
  { block with paddr := block.paddr + pageSize, size := block.size - pageSize }

theorem pageSize_le {region : Region} (whole : WholePages region) : pageSize ≤ region.size := by
  obtain ⟨-, aligned, positive, -⟩ := whole
  unfold pageSize at *
  omega

theorem cutFirstFit_page {first : PageBlock} {rest : List PageBlock}
    (whole : WholePages first.region) : cutFirstFit pageSize (first :: rest) =
      if first.size = pageSize then some (first.paddr, rest, [first.node])
      else some (first.paddr, shrink first :: rest, []) := by
  have fits : pageSize ≤ first.size := pageSize_le whole
  have inside : first.paddr + first.size ≤ addrModulus := whole.inside
  unfold cutFirstFit
  rw [if_pos fits]
  by_cases exactly : first.size = pageSize
  · rw [if_pos exactly, if_pos (by dsimp only; omega)]
  · have moved : (first.paddr + pageSize) % addrModulus = first.paddr + pageSize :=
      mod_eq_of_lt (by omega)
    rw [if_neg exactly, if_neg (by dsimp only; omega), moved]
    rfl

section Stock

variable {origin : Set Nat} {first : Region} {rest pages : List Region} {freeSpace : Nat}

section Grants

variable (stock : Stock origin (first :: rest) freeSpace pages)

include stock

/-- A grant moves a page from the free regions to the granted pages. -/
theorem Stock.grant {list : List Region} (whole : ∀ region ∈ list, WholePages region)
    (disjoint : list.Pairwise fun first second => Disjoint first.bytes second.bytes)
    (total : totalSize (first :: rest) = pageSize + totalSize list)
    (cover : covered (first :: rest) = (⟨first.base, pageSize⟩ : Region).bytes ∪ covered list)
    (apart : Disjoint (⟨first.base, pageSize⟩ : Region).bytes (covered list)) :
    Stock origin list (wrapSub addrModulus freeSpace pageSize)
      (⟨first.base, pageSize⟩ :: pages) := by
  have counter := stock.counter
  have space : wrapSub addrModulus freeSpace pageSize = freeSpace - pageSize :=
    wrapSub_of_le (by omega) stock.small
  have aligned := (stock.whole first mem_cons_self).baseAligned
  refine ⟨whole, disjoint, by
    omega, ?_, forall_mem_cons.mpr ⟨⟨rfl, aligned⟩, stock.single⟩, ?_, ?_⟩
  · have small := stock.small
    omega
  · rw [← stock.cover, cover, covered_cons]
    ac_rfl
  · have before := stock.apart
    rw [cover, disjoint_union_right] at before
    rw [covered_cons, disjoint_union_left]
    exact ⟨apart, before.2⟩

theorem Stock.cut (larger : first.size ≠ pageSize) :
    Stock origin (⟨first.base + pageSize, first.size - pageSize⟩ :: rest)
      (wrapSub addrModulus freeSpace pageSize) (⟨first.base, pageSize⟩ :: pages) := by
  obtain ⟨wholeFirst, wholeRest⟩ := forall_mem_cons.mp stock.whole
  obtain ⟨apart, disjoint⟩ := pairwise_cons.mp stock.disjoint
  have fits := pageSize_le wholeFirst
  obtain ⟨baseAligned, sizeAligned, positive, inside⟩ := wholeFirst
  have bytes := bytes_cut first.base first.size pageSize fits
  have smaller : (⟨first.base + pageSize, first.size - pageSize⟩ : Region).bytes ⊆ first.bytes :=
    fun address inside => bytes ▸ Or.inr inside
  refine stock.grant (forall_mem_cons.mpr ⟨⟨?_, ?_, ?_, ?_⟩, wholeRest⟩)
    (pairwise_cons.mpr ⟨fun other member => (apart other member).mono_left smaller, disjoint⟩)
      ?_ ?_ ?_
  · unfold pageSize at *
    dsimp only
    omega
  · unfold pageSize at *
    dsimp only
    omega
  · dsimp only
    omega
  · dsimp only
    omega
  · rw [totalSize_cons, totalSize_cons]
    dsimp only
    omega
  · rw [covered_cons, covered_cons, ← union_assoc]
    exact congrArg (· ∪ _) bytes
  · rw [covered_cons, disjoint_union_right]
    refine ⟨disjoint_of_limit_le le_rfl, disjoint_covered.mpr fun other member => ?_⟩
    refine (apart other member).mono_left fun address inside => ?_
    exact bytes ▸ Or.inl inside

/-- A first block that is one page large is granted whole. -/
theorem Stock.take (exactly : first.size = pageSize) :
    Stock origin rest (wrapSub addrModulus freeSpace pageSize)
      (⟨first.base, pageSize⟩ :: pages) := by
  obtain ⟨apart, disjoint⟩ := pairwise_cons.mp stock.disjoint
  have same : (⟨first.base, pageSize⟩ : Region) = first := by rw [← exactly]
  refine stock.grant (fun region member => stock.whole region (mem_cons_of_mem _ member))
    disjoint ?_ ?_ ?_
  · rw [totalSize_cons, exactly]
  · rw [covered_cons, same]
  · rw [same]
    exact disjoint_covered.mpr apart

/-- There is a page to grant, and it has not been granted before. -/
theorem Stock.grantable : pageSize ≤ freeSpace ∧ ∀ page ∈ pages, page.base ≠ first.base := by
  have fits := pageSize_le (stock.whole first mem_cons_self)
  refine ⟨?_, fun page member same => ?_⟩
  · rw [stock.counter]
    exact fits.trans (le_add_right _ _)
  · have inside : page.base ∈ covered pages :=
      ⟨page, member, base_mem (by rw [(stock.single page member).1]; decide)⟩
    refine disjoint_left.mp stock.apart inside ⟨first, mem_cons_self, ?_⟩
    rw [same]
    exact base_mem (Nat.lt_of_lt_of_le (by decide) fits)

end Grants

theorem Stock.page_mem (stock : Stock origin rest freeSpace pages) {page : Region}
    (member : page ∈ pages) : page.base ∈ origin ∧ page.base % pageSize = 0 := by
  obtain ⟨size, aligned⟩ := stock.single page member
  rw [← stock.cover]
  exact ⟨Or.inl ⟨page, member, base_mem (by rw [size]; decide)⟩, aligned⟩

end Stock

/-! ### The new allocator -/

theorem node_request (abi : Abi) :
    abi.blockSize + abi.headerSize + pageSize < abi.modulus ∧
      pagesSize abi abi.blockSize = pageSize ∧ allocSize abi abi.blockSize ≤ pageSize ∧
      3 * allocSize abi abi.blockSize + (abi.headerSize + allocAlign) ≤ pageSize ∧
      0 < abi.blockSize := by
  cases abi <;> decide +kernel

/-- No block on the free list is large enough for a node. -/
def NoFit (heap : Heap) (free : List Region) : Prop :=
  ∀ block ∈ free, block.size < allocSize heap.abi heap.abi.blockSize

/-- `kmalloc` gives a node. -/
def GivesNode (heap : Heap) (sys : System) (new : Nat) (after : System) : Prop :=
  Ends (fun fuel => kmalloc heap fuel (release heap fuel) heap.abi.blockSize 0 sys)
    (some new, after)

/-- The new allocator with nodes for its objects, in pages it has been granted. -/
structure Hoard (heap : Heap) (nodes : List Nat) (pages : List Region)
    (sys : System) (usage : Usage) (free : List Region) : Prop where
  mem : usage.mem = sys.mem
  invariant : Invariant heap.abi heap.head usage free
  snug : ∀ object ∈ usage.live, (object.block heap.abi usage.mem).size <
    allocSize heap.abi heap.abi.blockSize + (heap.abi.headerSize + allocAlign)
  live : usage.live.Perm (nodes.map (nodeObject heap.abi))
  owned : ∀ address, address ∈ usage.owned ↔
    ∃ page ∈ pages, address ∈ (⟨heap.kva page.base, pageSize⟩ : Region).bytes
  held : (held sys.log).Perm nodes
  freed : ∀ obj, Event.kfree obj ∈ sys.log → obj ∈ usage.owned

theorem nodeObject_injective (abi : Abi) : Function.Injective (nodeObject abi) := fun _ _ same =>
  congrArg Object.obj same

variable {node paddr new : Nat} {first : PageBlock} {tail : List PageBlock} {left : List Region}
  {after : Memory}

namespace Hoard

variable {heap : Heap} {nodes : List Nat} {pages : List Region} {sys : System} {usage : Usage}
  {free : List Region} (hoard : Hoard heap nodes pages sys usage free)

include hoard

theorem node_owned (member : node ∈ nodes) : node ∈ usage.owned := by
  have live : nodeObject heap.abi node ∈ usage.live :=
    hoard.live.mem_iff.mpr (mem_map_of_mem member)
  have separated := hoard.invariant.separated
  have positive := (node_request heap.abi).2.2.2.2
  exact separated.inside _ live (separated.payload _ live (base_mem positive))

/-- One more node is handed out. -/
theorem handOut {more : List Region} {owned : Set Nat}
    (handed : HandedOut heap.abi heap.head usage owned (allocSize heap.abi heap.abi.blockSize)
      heap.abi.blockSize new after left)
    (grown : ∀ address, address ∈ owned ↔
      ∃ page ∈ more, address ∈ (⟨heap.kva page.base, pageSize⟩ : Region).bytes)
    (subset : usage.owned ⊆ owned) :
    Hoard heap (new :: nodes) more { sys with mem := after, log := .kmalloc new :: sys.log }
      ⟨after, nodeObject heap.abi new :: usage.live, owned⟩ left := by
  refine ⟨rfl, handed.invariant, ?_, hoard.live.cons _, grown, hoard.held.cons _,
    fun obj logged => ?_⟩
  · refine forall_mem_cons.mpr ⟨handed.snug, fun object member => ?_⟩
    rw [map_inj_left.mp handed.same object member]
    exact hoard.snug object member
  · rcases mem_cons.mp logged with no | old
    · cases no
    · exact subset (hoard.freed obj old)

/-- A node that is cut from a free block. -/
theorem fit (fit : ∃ block ∈ free, allocSize heap.abi heap.abi.blockSize ≤ block.size) :
    ∃ new after left, (∀ fuel > free.length, ∀ release : Release,
        kmalloc heap fuel release heap.abi.blockSize 0 sys =
        .ok (some new, { sys with mem := after, log := .kmalloc new :: sys.log })) ∧
      Hoard heap (new :: nodes) pages { sys with mem := after, log := .kmalloc new :: sys.log }
        ⟨after, nodeObject heap.abi new :: usage.live, usage.owned⟩ left ∧
      Set.EqOn after sys.mem (territory heap.abi heap.head usage.owned)ᶜ := by
  obtain ⟨new, after, left, returned, handed⟩ := Invariant.alloc_found hoard.invariant
    (allocSize_fits (node_request heap.abi).1) (lt_succ_self _) fit
  refine ⟨new, after, left, fun fuel enough release => kmalloc_fit ?_,
    hoard.handOut handed hoard.owned le_rfl, hoard.mem ▸ handed.frame⟩
  rw [← hoard.mem]
  exact alloc_mono enough returned

/-- When no free block is large enough for a node, the region a freed node becomes part of is
smaller than a page. -/
theorem pageless (member : node ∈ nodes) (none : NoFit heap free) {extent : Region}
    (isExtent : Extent heap.abi heap.head usage.mem
      ((nodeObject heap.abi node).block heap.abi usage.mem) extent) :
    ¬ firstBorder extent < lastBorder extent := by
  have represents := hoard.invariant.represents
  have listed : ∀ base, OnFreeList heap.abi heap.head usage.mem base →
      usage.mem base < allocSize heap.abi heap.abi.blockSize := by
    intro base onList
    obtain ⟨block, isFree, rfl⟩ := represents.onFreeList_iff.mp onList
    rw [represents.sizes block isFree]
    exact none block isFree
  have snug := hoard.snug _ (hoard.live.mem_iff.mpr (mem_map_of_mem member))
  have room := (node_request heap.abi).2.2.2.1
  obtain ⟨above, below, -, -⟩ := borders_bounds extent
  have span : extent.limit < extent.base + pageSize := by
    generalize (nodeObject heap.abi node).block heap.abi usage.mem = block at snug isExtent
    rcases isExtent.lower with ⟨onList, ends⟩ | ⟨base, -⟩ <;>
      rcases isExtent.upper with ⟨upperListed, limit⟩ | ⟨limit, -⟩
    · have lower := listed _ onList
      have upper := listed _ upperListed
      unfold Region.limit at *
      omega
    · have lower := listed _ onList
      unfold Region.limit at *
      omega
    · have upper := listed _ upperListed
      unfold Region.limit at *
      omega
    · unfold Region.limit at *
      omega
  unfold firstBorder lastBorder at *
  unfold pageSize at *
  omega

/-- A node is given back while no free block is large enough for a node. -/
theorem giveBack (member : node ∈ nodes) (none : NoFit heap free) :
    ∃ after left, (∀ fuel > free.length, release heap fuel node sys =
        .ok { sys with mem := after, log := .kfree node :: sys.log }) ∧
      Hoard heap (nodes.erase node) pages { sys with mem := after, log := .kfree node :: sys.log }
        ⟨after, usage.live.erase (nodeObject heap.abi node), usage.owned⟩ left ∧
      Set.EqOn after sys.mem (territory heap.abi heap.head usage.owned)ᶜ := by
  have live : nodeObject heap.abi node ∈ usage.live :=
    hoard.live.mem_iff.mpr (mem_map_of_mem member)
  obtain ⟨after, left, returned, freed⟩ := hoard.invariant.free_quiet live fun extent isExtent =>
    hoard.pageless member none isExtent
  refine ⟨after, left, fun fuel enough => release_quiet (zero_lt_of_lt enough) ?_,
    ⟨rfl, freed.invariant, fun object left => ?_, ?_, hoard.owned, hoard.held.erase node,
      fun obj logged => ?_⟩, hoard.mem ▸ freed.frame⟩
  · have notNull : node ≠ 0 := hoard.invariant.obj_ne_zero live
    rw [← hoard.mem, FreeList.kfree, if_pos notNull]
    exact returned fuel enough
  · rw [map_inj_left.mp freed.same object left]
    exact hoard.snug object (mem_of_mem_erase left)
  · rw [map_erase (nodeObject_injective heap.abi)]
    exact hoard.live.erase _
  · rcases mem_cons.mp logged with same | old
    · cases same
      exact hoard.node_owned member
    · exact hoard.freed obj old

/-- A node that is cut from a page that has just been granted. -/
theorem takePage {avoid origin : Set Nat} (usable : Usable heap avoid origin)
    (avoids : headCells heap.abi heap.head ⊆ avoid) (inside : paddr ∈ origin)
    (aligned : paddr % pageSize = 0)
    (others : ∀ page ∈ pages, page.base ∈ origin ∧ page.base % pageSize = 0 ∧ page.base ≠ paddr) :
    ∃ new after left owned,
      (∀ fuel > free.length, takePages heap.abi heap.kva heap.head fuel heap.abi.blockSize 0 paddr
        sys.mem = some (new, after)) ∧
      Hoard heap (new :: nodes) (⟨paddr, pageSize⟩ :: pages)
        { sys with mem := after, log := .kmalloc new :: sys.log }
        ⟨after, nodeObject heap.abi new :: usage.live, owned⟩ left ∧
      Set.EqOn after sys.mem (territory heap.abi heap.head owned)ᶜ := by
  obtain ⟨small, size, room, -, -⟩ := node_request heap.abi
  have kvaAligned := usable.aligned paddr inside aligned
  have outside := disjoint_right.mp (usable.apart paddr inside aligned)
  have granted : Granted heap.abi heap.head usage
      ⟨heap.kva paddr, pagesSize heap.abi heap.abi.blockSize⟩ := by
    rw [size]
    refine ⟨kvaAligned, disjoint_left.mpr fun address here there => ?_,
      outside (avoids (Or.inl rfl)), outside (avoids (Or.inr (Or.inl rfl)))⟩
    obtain ⟨page, member, within⟩ := (hoard.owned address).mp there
    obtain ⟨pageInside, pageAligned, different⟩ := others page member
    have otherAligned := usable.aligned page.base pageInside pageAligned
    refine different (usable.distinct page.base pageInside paddr inside pageAligned aligned ?_)
    rw [mem_bytes] at here within
    unfold pageSize at *
    dsimp only at *
    omega
  obtain ⟨new, after, left, returned, handed⟩ :=
    @Invariant.takePages _ _ _ _
    hoard.invariant heap.kva (free.length + 1) heap.abi.blockSize 0 paddr small (lt_succ_self _)
    granted (by rw [size]; exact usable.inside paddr inside aligned) (by rw [size]; exact room)
  rw [size] at handed
  refine ⟨new, after, left, _, fun fuel enough => ?_, hoard.handOut handed (fun address => ?_)
    subset_union_right, hoard.mem ▸ handed.frame⟩
  · rw [← hoard.mem]
    exact takePages_mono enough returned
  · simp only [mem_union, hoard.owned, mem_cons, exists_eq_or_imp]

theorem nodup : nodes.Nodup := by
  have apart := hoard.invariant.separated.apart
  have live : usage.live.Nodup := apart.imp_of_mem fun first _ disjoint same => by
    subst same
    have fine := hoard.invariant.tiled.fine _ (mem_append_right _ (mem_map_of_mem first))
    exact disjoint_left.mp disjoint fine.base_mem fine.base_mem
  exact List.Nodup.of_map _ (hoard.live.nodup_iff.mp live)

theorem perm {others : List Nat} (same : nodes.Perm others) :
    Hoard heap others pages sys usage free := by
  obtain ⟨mem, invariant, snug, live, owned, held, freed⟩ := hoard
  exact ⟨mem, invariant, snug, live.trans (same.map _), owned, held.trans same, freed⟩

theorem of_log {after : System} (mem : after.mem = sys.mem)
    (sameHeld : MemorySystem.held after.log = MemorySystem.held sys.log)
    (sameFreed : ∀ obj, Event.kfree obj ∈ after.log → Event.kfree obj ∈ sys.log) :
    Hoard heap nodes pages after usage free := by
  obtain ⟨memBefore, invariant, snug, live, owned, held, freed⟩ := hoard
  exact ⟨memBefore.trans mem.symm, invariant, snug, live, owned, sameHeld ▸ held,
    fun obj logged => freed obj (sameFreed obj logged)⟩

/-- What is written elsewhere does not matter to the new allocator. -/
theorem write {after : System}
    (frame : Set.EqOn after.mem sys.mem (territory heap.abi heap.head usage.owned))
    (sameHeld : MemorySystem.held after.log = MemorySystem.held sys.log)
    (sameFreed : ∀ obj, Event.kfree obj ∈ after.log → Event.kfree obj ∈ sys.log) :
    Hoard heap nodes pages after { usage with mem := after.mem } free := by
  obtain ⟨mem, invariant, snug, live, owned, held, freed⟩ := hoard
  rw [← mem] at frame
  refine ⟨rfl, @Invariant.write _ heap.kva _ _ _ _ invariant ?_,
    fun object member => ?_, live, owned, sameHeld ▸ held, fun obj logged =>
      freed obj (sameFreed obj logged)⟩
  · refine frame.mono ?_
    rintro address (isHead | isHead | ⟨inside, -⟩)
    · exact Or.inl isHead
    · exact Or.inr (Or.inl isHead)
    · exact Or.inr (Or.inr inside)
  · have fine := invariant.tiled.fine _ (mem_append_right _ (mem_map_of_mem member))
    have inside := invariant.separated.inside object member fine.base_mem
    have size : (object.block heap.abi after.mem).size = (object.block heap.abi usage.mem).size :=
      frame (Or.inr (Or.inr inside))
    exact size ▸ snug object member

end Hoard

/-! ### The bootstrap allocator -/

/-- The bootstrap allocator, with objects for the nodes that still have to be moved. -/
structure Boots (heap : Heap) (bootHead : Nat) (pool : Region) (nodes : List Nat) (mem : Memory)
    (boot : Usage) (free : List Region) : Prop where
  same : boot.mem = mem
  bootstrapped : Bootstrapped heap.abi bootHead pool boot free
  live : ∀ node ∈ nodes, nodeObject heap.abi node ∈ boot.live

namespace Boots

variable {heap : Heap} {bootHead : Nat} {pool : Region} {nodes : List Nat}
  {mem : Memory} {boot : Usage} {free : List Region}

theorem node_mem (boots : Boots heap bootHead pool nodes mem boot free)
    (member : node ∈ nodes) : node ∈ pool.bytes := by
  have live := boots.live node member
  have separated := boots.bootstrapped.invariant.separated
  have positive := (node_request heap.abi).2.2.2.2
  rw [← boots.bootstrapped.owned]
  exact separated.inside _ live (separated.payload _ live (base_mem positive))

/-- What is written elsewhere does not matter to the bootstrap allocator. -/
theorem write (boots : Boots heap bootHead pool nodes mem boot free) {after : Memory}
    (frame : Set.EqOn after mem (territory heap.abi bootHead pool.bytes)) :
    Boots heap bootHead pool nodes after { boot with mem := after } free := by
  obtain ⟨same, ⟨invariant, untouching, owned⟩, live⟩ := boots
  refine ⟨rfl, ⟨@Invariant.write _ heap.kva _ _ _ _ invariant ?_, untouching, owned⟩, live⟩
  intro address reserved
  rw [same]
  refine frame ?_
  rcases reserved with isHead | isHead | ⟨inside, -⟩
  · exact Or.inl isHead
  · exact Or.inr (Or.inl isHead)
  · exact Or.inr (Or.inr (owned ▸ inside))

/-- A node is freed by the bootstrap allocator. -/
theorem giveBack (boots : Boots heap bootHead pool (node :: nodes) mem boot free)
    (isPool : IsPool heap.abi bootHead pool) (fresh : node ∉ nodes) :
    ∃ after left, (∀ fuel > free.length, ∀ sys : System, sys.mem = mem →
        bootstrapFree heap bootHead fuel node sys =
          .ok { sys with mem := after, log := .oldFree node :: sys.log }) ∧
      Boots heap bootHead pool nodes after
        ⟨after, boot.live.erase (nodeObject heap.abi node), boot.owned⟩ left ∧
      Set.EqOn after mem (territory heap.abi bootHead pool.bytes)ᶜ := by
  obtain ⟨same, bootstrapped, live⟩ := boots
  obtain ⟨liveNode, liveNodes⟩ := forall_mem_cons.mp live
  have invariant := bootstrapped.invariant
  obtain ⟨after, left, returned, freed⟩ := invariant.free_quiet liveNode fun extent isExtent => by
    obtain ⟨_, front, joined, back, -, merged⟩ := invariant.merge liveNode (lt_succ_self _)
    rw [isExtent.unique invariant.represents invariant.tiled merged.extent]
    exact isPool.no_borders (merged.placed.tiled.fine _ mem_cons_self).positive
      (bootstrapped.owned ▸ merged.placed.tiled.tiling.subset mem_cons_self)
  obtain ⟨front, extent, back, rfl, merged⟩ := freed.merged
  refine ⟨after, _, fun fuel enough sys here => ?_,
    ⟨rfl, ⟨freed.invariant, bootstrapped.merged merged,
    bootstrapped.owned⟩, fun other member => ?_⟩, ?_⟩
  · have call := returned fuel enough
    rw [bootstrapFree, here, ← same, show node = (nodeObject heap.abi node).obj from rfl, call]
    rfl
  · refine (mem_erase_of_ne fun equal => fresh ?_).mpr (liveNodes other member)
    exact nodeObject_injective heap.abi equal ▸ member
  · rw [← same, ← bootstrapped.owned]
    exact freed.frame

end Boots

/-! ### Both allocators -/

/-- Where the two allocators are. -/
structure Site (heap : Heap) (bootHead : Nat) (pool : Region) (origin : Set Nat) : Prop where
  isPool : IsPool heap.abi bootHead pool
  usable : Usable heap (headCells heap.abi heap.head ∪ territory heap.abi bootHead pool.bytes)
    origin
  headApart : Disjoint (headCells heap.abi heap.head) (territory heap.abi bootHead pool.bytes)

/-- A state on the way: some nodes are objects of the new allocator, the others wait for their
turn. -/
structure Midway (heap : Heap) (bootHead : Nat) (pool : Region) (origin : List PageBlock)
    (moved waiting : List Nat) (sys : System) : Prop where
  stock : Stock (covered (regions origin)) (regions sys.pages.blocks) sys.pages.freeSpace
    (granted sys.log)
  hoard : ∃ usage free, Hoard heap moved (granted sys.log) sys usage free
  boots : ∃ boot free, Boots heap bootHead pool waiting sys.mem boot free
  old : (oldFreed sys.log ++ waiting).Perm (origin.map PageBlock.node)

section Site

variable {heap : Heap} {bootHead : Nat} {pool : Region} {origin : List PageBlock}
  {moved waiting nodes : List Nat} {pages free : List Region} {sys : System} {usage : Usage}

/-- What the new allocator writes to is apart from what the bootstrap allocator reads. -/
theorem Site.apart {inside : Set Nat} (site : Site heap bootHead pool inside)
    (hoard : Hoard heap nodes pages sys usage free)
    (known : ∀ page ∈ pages, page.base ∈ inside ∧ page.base % pageSize = 0) :
    Disjoint (territory heap.abi heap.head usage.owned)
      (territory heap.abi bootHead pool.bytes) := by
  refine disjoint_left.mpr fun address mine other => ?_
  rcases mine with isHead | isHead | owned
  · exact disjoint_left.mp site.headApart (Or.inl isHead) other
  · exact disjoint_left.mp site.headApart (Or.inr (Or.inl isHead)) other
  · obtain ⟨page, member, within⟩ := (hoard.owned address).mp owned
    obtain ⟨free, aligned⟩ := known page member
    exact disjoint_left.mp (site.usable.apart page.base free aligned) within (Or.inr other)

/-- What the new allocator has written leaves the bootstrap allocator as it is. -/
theorem Site.boots {inside : Set Nat} (site : Site heap bootHead pool inside)
    (hoard : Hoard heap nodes pages sys usage free)
    (known : ∀ page ∈ pages, page.base ∈ inside ∧ page.base % pageSize = 0) {before : Memory}
    (frame : Set.EqOn after before (territory heap.abi heap.head usage.owned)ᶜ)
    (boots : ∃ boot free, Boots heap bootHead pool waiting before boot free) :
    ∃ boot free, Boots heap bootHead pool waiting after boot free := by
  obtain ⟨boot, bootFree, boots⟩ := boots
  have outside := (site.apart hoard known).symm.subset_compl_right
  exact ⟨_, bootFree, boots.write (frame.mono outside)⟩

variable (site : Site heap bootHead pool (covered (regions origin)))

include site

/-- A node cut from a free block of the new allocator. -/
theorem Midway.fit (midway : Midway heap bootHead pool origin moved waiting sys)
    (hoard : Hoard heap moved (granted sys.log) sys usage free)
    (fit : ∃ block ∈ free, allocSize heap.abi heap.abi.blockSize ≤ block.size) :
    ∃ new after, GivesNode heap sys new { sys with mem := after, log := .kmalloc new :: sys.log } ∧
      Midway heap bootHead pool origin (new :: moved) waiting
        { sys with mem := after, log := .kmalloc new :: sys.log } := by
  obtain ⟨new, after, left, returned, kept, frame⟩ := hoard.fit fit
  refine ⟨new, after, Ends.of_eventually fun fuel enough => returned fuel enough _, midway.stock,
    ⟨_, left, kept⟩, ?_, midway.old⟩
  exact site.boots hoard (fun page member => midway.stock.page_mem member) frame midway.boots

/-- A node cut from a page that `alloc_pages` has granted. -/
theorem Midway.takePage
    (stock : Stock (covered (regions origin)) (regions sys.pages.blocks) sys.pages.freeSpace
      (granted sys.log))
    (hoard : Hoard heap moved pages sys usage free)
    (boots : ∃ boot free, Boots heap bootHead pool waiting sys.mem boot free)
    (old : (oldFreed sys.log ++ waiting).Perm (origin.map PageBlock.node))
    (page : granted sys.log = ⟨paddr, pageSize⟩ :: pages)
    (fresh : ∀ page ∈ pages, page.base ≠ paddr) :
    ∃ new after,
      (∀ fuel > free.length, takePages heap.abi heap.kva heap.head fuel heap.abi.blockSize 0 paddr
        sys.mem = some (new, after)) ∧
      Midway heap bootHead pool origin (new :: moved) waiting
        { sys with mem := after, log := .kmalloc new :: sys.log } := by
  have known := fun page (member : page ∈ granted sys.log) => stock.page_mem member
  obtain ⟨inside, aligned⟩ := known ⟨paddr, pageSize⟩ (page ▸ mem_cons_self)
  obtain ⟨new, after, left, owned, returned, kept, frame⟩ := hoard.takePage site.usable
    subset_union_left inside aligned fun other member =>
      ⟨(known other (page ▸ mem_cons_of_mem _ member)).1,
        (known other (page ▸ mem_cons_of_mem _ member)).2, fresh other member⟩
  rw [← page] at kept
  exact ⟨new, after, returned, stock, ⟨_, left, kept⟩, site.boots kept known frame boots, old⟩

/-- `kmalloc` asks for a page, is granted one, and cuts the node from it. -/
theorem Midway.ask (hoard : Hoard heap nodes pages sys usage free) (none : NoFit heap free)
    {ready : System} {readyUsage : Usage}
    (asked : ∀ fuel > free.length, allocPages (release heap fuel) ⟨0, pageSize, 0, 0⟩ sys =
      .ok (0, ⟨paddr, pageSize, 0, 0⟩, ready))
    (stock : Stock (covered (regions origin)) (regions ready.pages.blocks) ready.pages.freeSpace
      (granted ready.log))
    (hoardReady : Hoard heap moved pages ready readyUsage left)
    (boots : ∃ boot free, Boots heap bootHead pool waiting ready.mem boot free)
    (old : (oldFreed ready.log ++ waiting).Perm (origin.map PageBlock.node))
    (page : granted ready.log = ⟨paddr, pageSize⟩ :: pages)
    (fresh : ∀ page ∈ pages, page.base ≠ paddr) :
    ∃ new after, GivesNode heap sys new after ∧
      after.pages = ready.pages ∧
        Midway heap bootHead pool origin (new :: moved) waiting after := by
  obtain ⟨new, after, taken, kept⟩ := Midway.takePage site stock hoardReady boots old page fresh
  refine ⟨new, { ready with mem := after, log := .kmalloc new :: ready.log },
    ⟨max free.length left.length + 1, fun fuel enough => ?_⟩, rfl, kept⟩
  obtain ⟨first, second⟩ := max_lt_iff.mp (lt_of_succ_le enough)
  have seek := hoard.invariant.represents.noFit first none
  have granted := asked fuel first
  rw [hoard.mem] at seek
  rw [← (node_request heap.abi).2.1] at granted
  exact kmalloc_grant seek granted (taken fuel second)

/-- The page is the front of a first block that stays on the list. -/
theorem Midway.cut (midway : Midway heap bootHead pool origin moved waiting sys)
    (hoard : Hoard heap moved (granted sys.log) sys usage free) (none : NoFit heap free)
    (blocks : sys.pages.blocks = first :: tail) (larger : first.size ≠ pageSize) :
    ∃ new after, GivesNode heap sys new after ∧
      after.pages.blocks = shrink first :: tail ∧
      Midway heap bootHead pool origin (new :: moved) waiting after := by
  obtain ⟨stock, -, boots, old⟩ := midway
  rw [blocks] at stock
  obtain ⟨enough, fresh⟩ := stock.grantable
  have cut := @cutFirstFit_page _ tail (stock.whole first.region mem_cons_self)
  rw [if_neg larger, ← blocks] at cut
  obtain ⟨ready, isReady⟩ : ∃ ready : System, ready =
    ⟨sys.mem, ⟨shrink first :: tail, wrapSub addrModulus sys.pages.freeSpace pageSize⟩,
      .grant ⟨first.paddr, pageSize⟩ :: sys.log⟩ := ⟨_, rfl⟩
  have asked : ∀ fuel > free.length, allocPages (release heap fuel) ⟨0, pageSize, 0, 0⟩ sys =
      .ok (0, ⟨first.paddr, pageSize, 0, 0⟩, ready) := fun fuel _ =>
    isReady ▸ allocPages_cut ⟨0, pageSize, 0, 0⟩ (by decide) enough cut
  have stockReady := stock.cut larger
  have hoardReady : Hoard heap moved (granted sys.log) ready usage free :=
    hoard.of_log (by rw [isReady]) (by rw [isReady]; rfl) fun obj logged => by
      simpa [isReady] using logged
  subst isReady
  obtain ⟨new, after, ends, pages, kept⟩ :=
    Midway.ask site hoard none asked stockReady hoardReady boots old rfl fresh
  exact ⟨new, after, ends, by rw [pages], kept⟩

/-- The page is the whole of a first block, whose node goes back to the new allocator. -/
theorem Midway.take (midway : Midway heap bootHead pool origin moved waiting sys)
    (hoard : Hoard heap moved (granted sys.log) sys usage free) (none : NoFit heap free)
    (blocks : sys.pages.blocks = first :: tail) (exactly : first.size = pageSize)
    (member : first.node ∈ moved) :
    ∃ new after, GivesNode heap sys new after ∧
      after.pages.blocks = tail ∧
      Midway heap bootHead pool origin (new :: moved.erase first.node) waiting after := by
  obtain ⟨stock, -, boots, old⟩ := midway
  rw [blocks] at stock
  have known := fun page (member : page ∈ granted sys.log) => stock.page_mem member
  obtain ⟨enough, fresh⟩ := stock.grantable
  have cut := @cutFirstFit_page _ tail (stock.whole first.region mem_cons_self)
  rw [if_pos exactly, ← blocks] at cut
  have hoardCut : Hoard heap moved (granted sys.log)
      { sys.withBlocks tail with log := .grant ⟨first.paddr, pageSize⟩ :: sys.log } usage free :=
    hoard.of_log rfl rfl fun obj logged => by simpa using logged
  obtain ⟨after, left, released, hoardFreed, frame⟩ := hoardCut.giveBack member none
  have hoardReady : Hoard heap (moved.erase first.node) (granted sys.log)
      ⟨after, ⟨tail, wrapSub addrModulus sys.pages.freeSpace pageSize⟩,
        .kfree first.node :: .grant ⟨first.paddr, pageSize⟩ :: sys.log⟩
      ⟨after, usage.live.erase (nodeObject heap.abi first.node), usage.owned⟩ left :=
    hoardFreed.of_log rfl rfl fun obj logged => logged
  have asked : ∀ fuel > free.length, allocPages (release heap fuel) ⟨0, pageSize, 0, 0⟩ sys =
      .ok (0, ⟨first.paddr, pageSize, 0, 0⟩,
        ⟨after, ⟨tail, wrapSub addrModulus sys.pages.freeSpace pageSize⟩,
          .kfree first.node :: .grant ⟨first.paddr, pageSize⟩ :: sys.log⟩) := by
    intro fuel more
    rw [allocPages_cut ⟨0, pageSize, 0, 0⟩ (by decide) enough cut, foldlM_cons, released fuel more]
    rfl
  have stockReady := stock.take exactly
  obtain ⟨new, final, ends, pages, kept⟩ := Midway.ask site hoard none asked stockReady hoardReady
    (site.boots hoard known frame boots) old rfl fresh
  exact ⟨new, final, ends, by rw [pages], kept⟩

variable {done rest : List PageBlock} {this : PageBlock}

/-- The call of `kmalloc` in a round. The block under the cursor stays on the list. -/
theorem Midway.kmalloc
    (midway : Midway heap bootHead pool origin (done.map PageBlock.node) waiting sys)
    (blocks : sys.pages.blocks = done ++ this :: rest) (safe : done = [] → this.size ≠ pageSize) :
    ∃ new front cursor after, GivesNode heap sys new after ∧
      cursor.node = this.node ∧ after.pages.blocks = front ++ cursor :: rest ∧
      Midway heap bootHead pool origin (new :: front.map PageBlock.node) waiting after := by
  obtain ⟨usage, free, hoard⟩ := midway.hoard
  by_cases fit : ∃ block ∈ free, allocSize heap.abi heap.abi.blockSize ≤ block.size
  · obtain ⟨new, after, ends, kept⟩ := midway.fit site hoard fit
    exact ⟨new, done, this, _, ends, rfl, blocks, kept⟩
  have none : NoFit heap free := size_lt_of_no_fit fit
  cases done with
  | nil =>
    obtain ⟨new, after, ends, left, kept⟩ := midway.cut site hoard none blocks (safe rfl)
    exact ⟨new, [], shrink this, after, ends, rfl, left, kept⟩
  | cons first more =>
    by_cases exactly : first.size = pageSize
    · obtain ⟨new, after, ends, left, kept⟩ :=
        midway.take site hoard none blocks exactly mem_cons_self
      rw [map_cons, erase_cons_head] at kept
      exact ⟨new, more, this, after, ends, rfl, left, kept⟩
    · obtain ⟨new, after, ends, left, kept⟩ := midway.cut site hoard none blocks exactly
      exact ⟨new, shrink first :: more, this, after, ends, rfl, left, kept⟩

/-- The rest of a round: the node is replaced and the bootstrap allocator frees the old one. -/
theorem Midway.replace {front : List PageBlock} {cursor : PageBlock}
    (midway : Midway heap bootHead pool origin (new :: front.map PageBlock.node)
      ((cursor :: rest).map PageBlock.node) sys)
    (blocks : sys.pages.blocks = front ++ cursor :: rest)
    (nodup : ((cursor :: rest).map PageBlock.node).Nodup) (flags : Nat) :
    ∃ after, Ends (fun fuel => bootstrapFree heap bootHead fuel cursor.node
        (sys.withBlocks (front ++ { cursor with flags, node := new } :: rest))) after ∧
      after.pages.blocks = front ++ { cursor with flags, node := new } :: rest ∧
      Midway heap bootHead pool origin
        ((front ++ [{ cursor with flags, node := new }]).map PageBlock.node)
          (rest.map PageBlock.node)
        after := by
  obtain ⟨stock, ⟨usage, free, hoard⟩, ⟨boot, bootFree, boots⟩, old⟩ := midway
  obtain ⟨after, left, returned, kept, frame⟩ :=
    boots.giveBack site.isPool (nodup_cons.mp nodup).1
  have outside := (site.apart hoard fun page member => stock.page_mem member).subset_compl_right
  have same : regions (front ++ { cursor with flags, node := new } :: rest) =
      regions sys.pages.blocks := by
    rw [blocks]
    simp [regions, PageBlock.region]
  refine ⟨_, Ends.of_eventually fun fuel enough => returned fuel enough _ rfl, rfl, ?_, ?_,
    ⟨_, left, kept⟩, ?_⟩
  · rw [← same] at stock
    exact stock
  · have written : Hoard heap (new :: front.map PageBlock.node) (granted sys.log)
        ⟨after, ⟨front ++ { cursor with flags, node := new } :: rest, sys.pages.freeSpace⟩,
          .oldFree cursor.node :: sys.log⟩ { usage with mem := after } free :=
      hoard.write (frame.mono outside) rfl fun obj logged => by simpa using logged
    refine ⟨_, free, written.perm ?_⟩
    rw [map_append]
    exact (perm_append_singleton new _).symm
  · exact perm_middle.symm.trans old

theorem Midway.round (midway : Midway heap bootHead pool origin (done.map PageBlock.node)
      ((this :: rest).map PageBlock.node) sys)
    (blocks : sys.pages.blocks = done ++ this :: rest) (safe : done = [] → this.size ≠ pageSize)
    (nodup : ((this :: rest).map PageBlock.node).Nodup) :
    ∃ front after, front ≠ [] ∧ after.pages.blocks = front ++ rest ∧
      Midway heap bootHead pool origin (front.map PageBlock.node) (rest.map PageBlock.node) after ∧
      ∃ bound, ∀ fuel ≥ bound, ∀ steps,
        moveLoop heap bootHead fuel (steps + 1) (some this.node) sys =
          moveLoop heap bootHead fuel steps (rest.head?.map PageBlock.node) after := by
  obtain ⟨new, front, cursor, middle, ⟨allocBound, allocated⟩, sameNode, left, holding⟩ :=
    midway.kmalloc site blocks safe
  have waiting : (this :: rest).map PageBlock.node = (cursor :: rest).map PageBlock.node := by
    rw [map_cons, map_cons, sameNode]
  rw [waiting] at holding nodup
  obtain ⟨usage, free, hoard⟩ := holding.hoard
  obtain ⟨boot, bootFree, boots⟩ := holding.boots
  have apart := site.apart hoard fun page member => holding.stock.page_mem member
  have cursorFresh : cursor.node ∉ front.map PageBlock.node := fun member =>
    disjoint_left.mp apart (Or.inr (Or.inr (hoard.node_owned (mem_cons_of_mem _ member))))
      (Or.inr (Or.inr (boots.node_mem mem_cons_self)))
  obtain ⟨after, ⟨freeBound, freed⟩, replaced, kept⟩ :=
    holding.replace site left nodup (middle.mem (new + blockFlagsOffset))
  refine ⟨_, after, append_ne_nil_of_right_ne_nil _ (cons_ne_nil _ _), ?_, kept,
    max allocBound freeBound, fun fuel enough steps => ?_⟩
  · rw [replaced, append_assoc, singleton_append]
  · obtain ⟨first, second⟩ := max_le_iff.mp enough
    have found := @splitAtNode_middle _ rest _ cursorFresh
    have again := @splitAtNode_middle _ rest
      { cursor with flags := middle.mem (new + blockFlagsOffset), node := new }
      (nodup_cons.mp hoard.nodup).1
    have allocates := allocated fuel first
    have frees := freed fuel second
    dsimp only at allocates frees again
    rw [moveLoop, allocates]
    dsimp only [bind, Except.bind]
    rw [← sameNode, left, found]
    dsimp only
    rw [frees]
    dsimp only
    rw [replaced, again]

/-- The loop, from a block that has a moved block in front of it or is larger than a page. -/
theorem Midway.loop (midway : Midway heap bootHead pool origin (done.map PageBlock.node)
      (rest.map PageBlock.node) sys)
    (blocks : sys.pages.blocks = done ++ rest)
    (safe : done = [] → ∀ first ∈ rest.head?, first.size ≠ pageSize)
    (nodup : (rest.map PageBlock.node).Nodup) :
    ∃ final, Midway heap bootHead pool origin (final.pages.blocks.map PageBlock.node) [] final ∧
      ∃ bound, ∀ fuel ≥ bound, ∀ steps ≥ rest.length,
        moveLoop heap bootHead fuel steps (rest.head?.map PageBlock.node) sys = .ok final := by
  induction rest generalizing done sys with
  | nil =>
    rw [append_nil] at blocks
    refine ⟨sys, blocks ▸ midway, 0, fun fuel _ steps _ => ?_⟩
    cases steps <;> rfl
  | cons this rest inductionHypothesis =>
    obtain ⟨front, after, nonempty, left, kept, roundBound, round⟩ :=
      midway.round site blocks (fun none => safe none this rfl) nodup
    obtain ⟨final, moved, bound, returned⟩ := inductionHypothesis kept left
      (fun none => absurd none nonempty) (nodup_cons.mp nodup).2
    refine ⟨final, moved, max roundBound bound, fun fuel enough steps more => ?_⟩
    obtain ⟨first, second⟩ := max_le_iff.mp enough
    obtain ⟨less, rfl⟩ := Nat.exists_eq_add_of_le' more
    rw [length_cons, ← add_assoc]
    exact (round fuel first _).trans (returned fuel second _ (le_add_left _ _))

end Site

/-! ### The move -/

section Handover

variable {heap : Heap} {bootHead : Nat} {pool : Region} {boot : Usage} {sys : System}

theorem Handover.site (handover : Handover heap bootHead pool boot sys) :
    Site heap bootHead pool (covered (regions sys.pages.blocks)) :=
  ⟨handover.isPool, handover.usable, handover.headApart⟩

theorem Handover.midway (handover : Handover heap bootHead pool boot sys) :
    Midway heap bootHead pool sys.pages.blocks [] (sys.pages.blocks.map PageBlock.node) sys := by
  have log := handover.log
  obtain ⟨mem, reachable⟩ := handover.reachable
  obtain ⟨bootFree, bootstrapped⟩ := reachable.bootstrapped handover.isPool handover.below
  have none : covered (granted sys.log) = ∅ := by
    rw [log]
    exact covered_nil
  refine ⟨⟨forall_mem_map.mpr handover.whole, handover.disjoint, handover.counter,
    handover.small, ?_, ?_, ?_⟩, ?_, ?_, ?_⟩
  · rw [log]
    exact nofun
  · rw [none, empty_union]
  · rw [none]
    exact empty_disjoint _
  · refine ⟨⟨sys.mem, [], ∅⟩, [], rfl, ?_, nofun, .nil, fun address => ?_, ?_, ?_⟩
    · rw [handover.started]
      exact Invariant.start heap.abi heap.head boot.mem
    · rw [log]
      exact iff_of_false (notMem_empty _) (by rintro ⟨page, member, -⟩; cases member)
    · rw [log]
      exact .nil
    · rw [log]
      exact nofun
  · have boots : Boots heap bootHead pool (sys.pages.blocks.map PageBlock.node) boot.mem
        boot bootFree := by
      refine ⟨rfl, bootstrapped, fun node member => ?_⟩
      obtain ⟨block, listed, rfl⟩ := mem_map.mp member
      exact handover.nodes block listed
    refine ⟨_, bootFree, boots.write fun address inside => ?_⟩
    have notHead := disjoint_right.mp handover.headApart inside
    rw [handover.started, listInit, Function.update_of_ne fun isHead =>
      notHead (Or.inr (Or.inl isHead)), Function.update_of_ne fun isHead => notHead (Or.inl isHead)]
  · rw [log]
    exact .refl _

theorem Handover.node_mem (handover : Handover heap bootHead pool boot sys) {block : PageBlock}
    (member : block ∈ sys.pages.blocks) : block.node ∈ pool.bytes := by
  obtain ⟨usage, free, boots⟩ := handover.midway.boots
  exact boots.node_mem (mem_map_of_mem member)

variable {final : System}

theorem Midway.moved {origin : List PageBlock}
    (midway : Midway heap bootHead pool origin (final.pages.blocks.map PageBlock.node) [] final)
    (site : Site heap bootHead pool (covered (regions origin)))
    (inPool : ∀ block ∈ origin, block.node ∈ pool.bytes) : Moved origin final := by
  obtain ⟨stock, ⟨usage, free, hoard⟩, -, old⟩ := midway
  have apart := site.apart hoard fun page member => stock.page_mem member
  refine ⟨fun block member => ?_, hoard.nodup, by
    rwa [append_nil] at old, fun block member freed => ?_,
    fun block member => (stock.whole block.region (mem_map_of_mem member)).nonempty, ?_⟩
  · exact hoard.held.mem_iff.mpr (mem_map_of_mem member)
  · exact disjoint_left.mp apart (Or.inr (Or.inr (hoard.freed _ freed)))
      (Or.inr (Or.inr (inPool block member)))
  · rw [← stock.cover, union_sdiff_left, stock.apart.sdiff_eq_right]

/-- A first block of one page is taken off the list, and its node goes to `kfree`. -/
theorem Handover.kfree_first (handover : Handover heap bootHead pool boot sys)
    (blocks : sys.pages.blocks = first :: tail) (exactly : first.size = pageSize) {fuel : Nat}
    (returned : pageAllocatorMove heap bootHead fuel sys = .ok final) :
    Event.kfree first.node ∈ final.log := by
  have logs := kfree_logs heap fuel fuel
  have stock := handover.midway.stock
  rw [blocks] at stock
  have cut := @cutFirstFit_page _ tail (stock.whole first.region mem_cons_self)
  rw [if_pos exactly, ← blocks] at cut
  rw [pageAllocatorMove, blocks] at returned
  cases fuel with
  | zero => cases returned
  | succ fuel =>
    have seek := (Invariant.start heap.abi heap.head boot.mem).represents.noFit
      (show ([] : List Region).length < fuel + 1 from zero_lt_succ _)
      (show ∀ block ∈ ([] : List Region),
        block.size < allocSize heap.abi heap.abi.blockSize from nofun)
    rw [show (initial heap.abi heap.head boot.mem).mem = sys.mem from handover.started.symm] at seek
    obtain ⟨new, allocated, left, freed, cursor, allocates, frees, rest⟩ := moveLoop_calls returned
    obtain ⟨retcode, request, ready, asked, grows⟩ := kmalloc_ask_log seek allocates
    rw [(node_request heap.abi).2.1,
      allocPages_cut ⟨0, pageSize, 0, 0⟩ (by decide) stock.grantable.1 cut] at asked
    obtain ⟨middle, released, last⟩ := bind_ok asked
    cases last
    have logged := (releases_log logs _ released).2 first.node mem_cons_self
    have later := (suffix_cons _ _).trans (giveBack_log logs frees)
    exact ((grows.trans later).trans (moveLoop_log fuel rest)).subset logged

/-- The list survives the move exactly when its first block is not one page large. -/
theorem move_survives_iff (handover : Handover heap bootHead pool boot sys) :
    (∃ final, Ends (fun fuel => pageAllocatorMove heap bootHead fuel sys) final ∧
        Moved sys.pages.blocks final) ↔
      ∀ first ∈ sys.pages.blocks.head?, first.size ≠ pageSize := by
  constructor
  · rintro ⟨final, ⟨bound, returned⟩, moved⟩ first isFirst exactly
    obtain ⟨tail, blocks⟩ := List.head?_eq_some_iff.mp isFirst
    refine moved.unfreed first (blocks ▸ mem_cons_self) ?_
    exact handover.kfree_first blocks exactly (returned bound le_rfl)
  · intro larger
    have start : Midway heap bootHead pool sys.pages.blocks
        (([] : List PageBlock).map PageBlock.node)
        (sys.pages.blocks.map PageBlock.node) sys := handover.midway
    obtain ⟨final, midway, bound, returned⟩ := start.loop handover.site rfl (fun _ => larger)
      handover.nodup
    refine ⟨final, ⟨max bound sys.pages.blocks.length, fun fuel enough => ?_⟩,
      midway.moved handover.site fun block member => handover.node_mem member⟩
    obtain ⟨first, second⟩ := max_le_iff.mp enough
    exact returned fuel first fuel second

end Handover

/-! ### Examples -/

/-- The heap of the examples: `pa2kva` adds the offset of the kernel's mapping. -/
def exampleHeap : Heap := ⟨.ilp32, (0x80000000 + ·), 0x800⟩

/-- A page list of one block, whose node is the first object in the bootstrap pool. -/
def exampleSystem (size : Nat) (mem : Memory) : System :=
  ⟨listInit .ilp32 mem 0x800, ⟨[⟨0x100000, size, 0, 0x1030⟩], size⟩, []⟩

theorem example_boot : ∃ boot,
    Reachable .ilp32 (0x80000000 + ·) 0x900 (fun usage call => call.Bootstrap .ilp32 0x900 usage)
        (bootstrapExample ⟨0x1010, 0x100⟩) boot ∧ boot.live = [⟨0x1030, 32⟩] := by
  have values : (alloc .ilp32 (0x80000000 + ·) 0x900 2 32 0 none
      (bootstrapExample ⟨0x1010, 0x100⟩).mem).map Allocated.obj = some (some 0x1030) := by
        decide +kernel
  obtain ⟨result, allocated, obj⟩ := Option.map_eq_some_iff.mp values
  have reachable := Reachable.step (.kmalloc 32 0 none) Reachable.start
    (show (Call.kmalloc 32 0 none).Bootstrap .ilp32 0x900 (bootstrapExample ⟨0x1010, 0x100⟩) from
      ⟨by unfold Unwrapped; decide, rfl⟩)
    (show (Call.kmalloc 32 0 none).run .ilp32 (0x80000000 + ·) 0x900 2
        (bootstrapExample ⟨0x1010, 0x100⟩) = some _ by rw [Call.run, allocated, Option.map_some])
  refine ⟨_, reachable, ?_⟩
  simp [obj, bootstrapExample, bootstrapped]

theorem example_handover {size : Nat} (aligned : size % pageSize = 0) (positive : 0 < size)
    (small : size ≤ 0x100000) :
    ∃ boot, Handover exampleHeap 0x900 ⟨0x1010, 0x100⟩ boot (exampleSystem size boot.mem) := by
  have isPool : IsPool .ilp32 0x900 ⟨0x1010, 0x100⟩ :=
    isPool_of_onePage (by decide) (by decide) (by decide) (by decide) (by decide)
  obtain ⟨boot, reachable, live⟩ := example_boot
  have inside : ∀ page ∈ covered (regions (exampleSystem size boot.mem).pages.blocks),
      0x100000 ≤ page ∧ page < 0x200000 := by
    rintro page ⟨region, member, within⟩
    obtain rfl := mem_singleton.mp member
    obtain ⟨above, below⟩ := mem_bytes.mp within
    dsimp only [PageBlock.region] at above below
    omega
  have cells : ∀ address ∈ headCells .ilp32 0x800 ∪ territory .ilp32 0x900 (⟨0x1010, 0x100⟩ :
      Region).bytes, address < 0x2000 := by
    rintro address ((rfl | rfl | none) | (rfl | rfl | ⟨-, below⟩))
    · decide
    · decide
    · exact absurd none (notMem_empty _)
    · decide
    · decide
    · exact below.trans (by decide)
  refine ⟨boot, isPool, by decide, ⟨_, reachable⟩, rfl, cons_ne_nil _ _, ?_,
    pairwise_singleton _ _, ?_, ?_, ?_, nodup_singleton _, ⟨?_, ?_, ?_, ?_⟩, ?_, rfl⟩
  · intro block member
    obtain rfl := mem_singleton.mp member
    refine ⟨show 0x100000 % pageSize = 0 by decide, aligned, positive, ?_⟩
    have bound : 0x200000 ≤ addrModulus := by decide
    dsimp only [PageBlock.region]
    omega
  · exact (add_zero size).symm
  · have bound : 0x200000 ≤ addrModulus := by decide
    dsimp only [exampleSystem]
    omega
  · intro block member
    obtain rfl := mem_singleton.mp member
    rw [live]
    exact mem_singleton_self _
  · intro page _ aligned
    show (0x80000000 + page) % pageSize = 0
    unfold pageSize at *
    omega
  · intro page free _
    obtain ⟨above, below⟩ := inside page free
    show 0x80000000 + page + 4096 < 4294967296
    omega
  · intro page free _
    refine disjoint_left.mpr fun address here there => ?_
    have low := cells address there
    have high : 0x80000000 + page ≤ address := here.1
    omega
  · intro page _ other _ _ _ same
    exact add_left_cancel same
  · refine disjoint_left.mpr ?_
    rintro address (rfl | rfl | none) there
    · rcases there with same | same | ⟨above, -⟩
      · exact absurd same (by decide)
      · exact absurd same (by decide)
      · exact absurd above (by decide)
    · rcases there with same | same | ⟨above, -⟩
      · exact absurd same (by decide)
      · exact absurd same (by decide)
      · exact absurd above (by decide)
    · exact absurd none (notMem_empty _)

/-- A block of two pages survives. -/
theorem move_survives_twoPages : ∃ boot,
    Handover exampleHeap 0x900 ⟨0x1010, 0x100⟩ boot (exampleSystem 0x2000 boot.mem) ∧
      ∃ final, Ends (fun fuel => pageAllocatorMove exampleHeap 0x900 fuel
          (exampleSystem 0x2000 boot.mem)) final ∧
        Moved (exampleSystem 0x2000 boot.mem).pages.blocks final := by
  obtain ⟨boot, handover⟩ := @example_handover 0x2000 (by decide) (by decide) (by decide)
  refine ⟨boot, handover, (move_survives_iff handover).mpr fun first isFirst => ?_⟩
  obtain rfl := Option.some.inj isFirst
  exact (by decide : (0x2000 : Nat) ≠ pageSize)

/-- A block of one page does not. -/
theorem move_loses_onePage : ∃ boot,
    Handover exampleHeap 0x900 ⟨0x1010, 0x100⟩ boot (exampleSystem 0x1000 boot.mem) ∧
      ¬ ∃ final, Ends (fun fuel => pageAllocatorMove exampleHeap 0x900 fuel
          (exampleSystem 0x1000 boot.mem)) final ∧
        Moved (exampleSystem 0x1000 boot.mem).pages.blocks final := by
  obtain ⟨boot, handover⟩ := @example_handover 0x1000 (by decide) (by decide) (by decide)
  refine ⟨boot, handover, ?_⟩
  rintro ⟨final, ⟨bound, returned⟩, moved⟩
  exact moved.unfreed _ mem_cons_self (handover.kfree_first rfl rfl (returned bound le_rfl))

end MemorySystem

end AIMv6
